import EmuCore.Rsx.RegisterPass

namespace EmuCore.Rsx.Fragment

open List

def laneWidth (f16 : Bool) : Nat := if f16 then 2 else 4

lemma laneWidth_cases (f16 : Bool) : laneWidth f16 = 2 ∨ laneWidth f16 = 4 := by
  cases f16 <;> simp [laneWidth]

lemma mem_range {ref : RegisterRef} {i : Nat} :
    i ∈ getRegisterFileRange ref ↔
      i / (4 * laneWidth ref.reg.f16) = ref.reg.id ∧
        ref.mask.getLsbD (i / laneWidth ref.reg.f16 % 4) = true := by
  have small : ref.reg.id < 48 := by
    have := ref.inFile
    split at this <;> omega
  by_cases empty : ref.mask = 0
  · simp [getRegisterFileRange, empty]
  rw [getRegisterFileRange, if_neg (by rintro (zero | large); exacts [empty zero, by omega])]
  simp only [mem_flatMap, List.mem_range]
  rw [show (if ref.reg.f16 = true then 2 else 4) = laneWidth ref.reg.f16 from rfl]
  have sizes := laneWidth_cases ref.reg.f16
  generalize laneWidth ref.reg.f16 = width at *
  constructor
  · rintro ⟨word, bound, member⟩
    split at member
    next set =>
      simp only [mem_map, List.mem_range] at member
      obtain ⟨byte, inside, rfl⟩ := member
      have channel : (ref.reg.id * width * 4 + word * width + byte) / width % 4 = word := by
        rcases sizes with rfl | rfl <;> omega
      refine ⟨?_, by rw [channel]; exact set⟩
      rcases sizes with rfl | rfl <;> omega
    next => cases member
  · rintro ⟨register, set⟩
    refine ⟨i / width % 4, by omega, ?_⟩
    rw [if_pos set]
    simp only [mem_map, List.mem_range]
    refine ⟨i % width, ?_, ?_⟩ <;> rcases sizes with rfl | rfl <;> omega

def Twins (lanes : List Nat) : Prop := ∀ i j, i / 2 = j / 2 -> (i ∈ lanes ↔ j ∈ lanes)

lemma range_twins (ref : RegisterRef) : Twins (getRegisterFileRange ref) := by
  intro i j twin
  rw [mem_range, mem_range]
  rcases laneWidth_cases ref.reg.f16 with width | width <;> rw [width]
  · rw [show i / (4 * 2) = j / (4 * 2) by omega, twin]
  · rw [show i / (4 * 4) = j / (4 * 4) by omega, show i / 4 = j / 4 by omega]

lemma range_bounded {ref : RegisterRef} {i : Nat} (member : i ∈ getRegisterFileRange ref) : i < 384 := by
  have register := (mem_range.mp member).1
  have bound := ref.inFile
  cases half : ref.reg.f16 <;> simp only [half, laneWidth] at register bound <;> simp at bound register <;>
    omega

namespace Barrier

def into : Barrier -> Bool
  | .up2 .. => true
  | _ => false

def Covers : Barrier -> Nat -> Prop
  | .pk2 dst ch _ _ _, i => i / 4 = dst * 4 + ch
  | .or16Lo dst ch _ _, i => i / 2 = (dst * 4 + ch) * 2
  | .or16Hi dst ch _ _, i => i / 2 = (dst * 4 + ch) * 2 + 1
  | .up2 dst channels _ _, i => i / 8 = dst ∧ i / 2 % 4 ∈ channels

def Straight (barrier : Barrier) : Prop :=
  ∀ files f16 i,
    (f16 = barrier.into ∧ barrier.Covers i -> barrier.exec files f16 i = files (!f16) i) ∧
      (¬(f16 = barrier.into ∧ barrier.Covers i) -> barrier.exec files f16 i = files f16 i)

end Barrier

lemma foldl_straight {side : Bool} {barriers : List Barrier}
    (straight : ∀ barrier ∈ barriers, barrier.into = side ∧ barrier.Straight) (files : Files) (f16 : Bool)
    (i : Nat) :
    ((f16 = side ∧ ∃ barrier ∈ barriers, barrier.Covers i) ->
        barriers.foldl Barrier.exec files f16 i = files (!f16) i) ∧
      (¬(f16 = side ∧ ∃ barrier ∈ barriers, barrier.Covers i) ->
        barriers.foldl Barrier.exec files f16 i = files f16 i) := by
  induction barriers generalizing files with
  | nil => simp
  | cons first rest ih =>
    rw [forall_mem_cons] at straight
    obtain ⟨⟨rfl, direct⟩, others⟩ := straight
    simp only [foldl_cons, mem_cons, exists_eq_or_imp]
    have source : f16 = first.into -> first.exec files (!f16) i = files (!f16) i := by
      rintro rfl
      exact (direct files _ i).2 (by simp)
    constructor
    · rintro ⟨rfl, here | later⟩
      · by_cases again : ∃ barrier ∈ rest, barrier.Covers i
        · rw [(ih others _).1 ⟨rfl, again⟩, source rfl]
        · rw [(ih others _).2 (by simp [again]), (direct files _ i).1 ⟨rfl, here⟩]
      · rw [(ih others _).1 ⟨rfl, later⟩, source rfl]
    · intro away
      rw [(ih others _).2 fun later => away ⟨later.1, .inr later.2⟩,
        (direct files _ i).2 fun here => away ⟨here.1, .inl here.2⟩]

lemma up2_straight {id ch : Nat} {tail : List Nat} (small : ch < 4)
    (same : ∀ c ∈ tail, c / 2 = ch / 2) :
    (Barrier.up2 id (ch :: tail) (id / 2)
      ((if ch < 2 then 0 else 1) + if id % 2 = 1 then 2 else 0)).Straight := by
  intro files f16 i
  constructor
  · rintro ⟨rfl, register, channel⟩
    have half : i / 2 % 4 / 2 = ch / 2 := by
      rcases mem_cons.mp channel with equal | member
      · rw [equal]
      · exact same _ member
    have place :
        id / 2 * 16 + ((if ch < 2 then 0 else 1) + if id % 2 = 1 then 2 else 0) * 4 + i % 4 = i := by
      split <;> split <;> omega
    exact (if_pos ⟨rfl, register, channel⟩).trans (congrArg (files false) place)
  · exact fun away => if_neg away

lemma buildBarrier16_straight {id : Nat} {channels : List Nat} (small : ∀ ch ∈ channels, ch < 4) :
    ∀ barrier ∈ buildBarrier16 id channels, barrier.into = true ∧ barrier.Straight := by
  fun_induction buildBarrier16 id channels with
  | case1 => simp
  | case2 ch =>
    rw [forall_mem_singleton]
    exact ⟨rfl, up2_straight (small ch (by simp)) (by simp)⟩
  | case3 ch next rest x both ih =>
    rw [forall_mem_cons] at small ⊢
    refine ⟨⟨rfl, up2_straight small.1 ?_⟩, ih (forall_mem_cons.mp small.2).2⟩
    rw [forall_mem_singleton]
    omega
  | case4 ch next rest x apart ih =>
    rw [forall_mem_cons] at small ⊢
    exact ⟨⟨rfl, up2_straight small.1 (by simp)⟩, ih small.2⟩

lemma buildBarrier16_covers (id : Nat) (channels : List Nat) (i : Nat) :
    (∃ barrier ∈ buildBarrier16 id channels, barrier.Covers i) ↔ i / 8 = id ∧ i / 2 % 4 ∈ channels := by
  fun_induction buildBarrier16 id channels with
  | case1 => simp
  | case2 ch => simp [Barrier.Covers]
  | case3 ch next rest x both ih | case4 ch next rest x apart ih =>
    rw [exists_mem_cons_iff, ih, Barrier.Covers]
    simp only [mem_cons, not_mem_nil, or_false]
    tauto

lemma buildBarrier32_straight (barrier : RegisterBarrier32) :
    ∀ built ∈ buildBarrier32 barrier, built.into = false ∧ built.Straight := by
  intro built member
  obtain ⟨ch, inside, rfl⟩ := mem_map.mp member
  have small : ch < 4 := List.mem_range.mp (mem_of_mem_filter inside)
  have first :
      (ch / 2 + barrier.id * 2) * 8 + (if ch % 2 = 0 then 0 else 2) * 2 = (barrier.id * 4 + ch) * 4 := by
    split <;> omega
  have second :
      (ch / 2 + barrier.id * 2) * 8 + (if ch % 2 = 0 then 1 else 3) * 2 = (barrier.id * 4 + ch) * 4 + 2 := by
    split <;> omega
  dsimp only
  generalize (if ch % 2 = 0 then 0 else 2) = x at *
  generalize (if ch % 2 = 0 then 1 else 3) = y at *
  split_ifs
  all_goals
    refine ⟨rfl, fun files f16 i => ⟨?_, fun away => if_neg away⟩⟩
    rintro ⟨rfl, here⟩
    simp only [Barrier.Covers] at here
    refine (if_pos ⟨rfl, here⟩).trans (congrArg (files true) ?_)
  · split <;> omega
  · omega
  · omega

lemma buildBarrier32_covers (barrier : RegisterBarrier32) (i : Nat) :
    (∃ built ∈ buildBarrier32 barrier, built.Covers i) ↔
      i / 16 = barrier.id ∧ (if i % 4 < 2 then barrier.orWord0 (i / 4 % 4) else barrier.orWord1 (i / 4 % 4)) = true := by
  constructor
  · rintro ⟨built, member, covers⟩
    obtain ⟨ch, inside, rfl⟩ := mem_map.mp member
    rw [RegisterBarrier32.mask, mem_filter, List.mem_range] at inside
    obtain ⟨small, some_word⟩ := inside
    dsimp only at covers
    split at covers
    next words =>
      simp only [Barrier.Covers] at covers
      simp only [Bool.and_eq_true] at words
      rw [show i / 4 % 4 = ch by omega]
      exact ⟨by omega, by split <;> simp [words]⟩
    next words =>
      split at covers
      next low =>
        simp only [Barrier.Covers] at covers
        rw [show i / 4 % 4 = ch by omega, if_pos (by omega)]
        exact ⟨by omega, low⟩
      next high =>
        simp only [Barrier.Covers] at covers
        rw [show i / 4 % 4 = ch by omega, if_neg (by omega)]
        exact ⟨by omega, by simpa [high] using some_word⟩
  · rintro ⟨register, word⟩
    refine ⟨_, mem_map.mpr ⟨i / 4 % 4, ?_, rfl⟩, ?_⟩
    · rw [RegisterBarrier32.mask, mem_filter, List.mem_range, Bool.or_eq_true]
      refine ⟨by omega, ?_⟩
      split at word
      · exact .inl word
      · exact .inr word
    · split at word
      next low =>
        rw [word]
        cases barrier.orWord1 (i / 4 % 4) <;> simp [Barrier.Covers] <;> omega
      next high =>
        rw [word]
        cases barrier.orWord0 (i / 4 % 4) <;> simp [Barrier.Covers] <;> omega

lemma resolveDependencies_straight (lanes : List Nat) (f16 : Bool) :
    ∀ barrier ∈ resolveDependencies lanes f16, barrier.into = f16 ∧ barrier.Straight := by
  intro barrier member
  unfold resolveDependencies at member
  split at member
  next half =>
    obtain ⟨ref, inside, built⟩ := mem_flatMap.mp member
    obtain ⟨index, -, decoded⟩ := mem_filterMap.mp inside
    dsimp only at decoded
    split at decoded
    · cases decoded
    cases decoded
    rw [half]
    refine buildBarrier16_straight (fun ch member => ?_) _ built
    exact List.mem_range.mp (mem_filter.mp member).1
  next half =>
    obtain ⟨ref, inside, built⟩ := mem_flatMap.mp member
    rw [Bool.eq_false_iff.mpr half]
    exact buildBarrier32_straight _ _ built

section

variable {lanes : List Nat} (twins : Twins lanes) (bounded : ∀ i ∈ lanes, i < 384)

include twins bounded

lemma resolveDependencies_covers (f16 : Bool) (i : Nat) :
    (∃ barrier ∈ resolveDependencies lanes f16, barrier.Covers i) ↔ i ∈ lanes := by
  cases f16 with
  | true =>
    constructor
    · rintro ⟨barrier, member, covers⟩
      obtain ⟨ref, inside, built⟩ := mem_flatMap.mp member
      obtain ⟨index, -, decoded⟩ := mem_filterMap.mp inside
      dsimp only at decoded
      split at decoded
      · cases decoded
      cases decoded
      obtain ⟨register, channel⟩ := (buildBarrier16_covers _ _ i).mp ⟨barrier, built, covers⟩
      rw [mem_filter, contains_iff_mem] at channel
      exact (twins _ _ (by omega)).mp channel.2
    · intro member
      have bound := bounded i member
      have channel : i / 2 % 4 ∈ (range 4).filter fun ch => lanes.contains (8 * (i / 8) + 2 * ch) := by
        rw [mem_filter, List.mem_range, contains_iff_mem]
        exact ⟨by omega, (twins _ _ (by omega)).mp member⟩
      obtain ⟨barrier, built, covers⟩ := (buildBarrier16_covers (i / 8) _ i).mpr ⟨rfl, channel⟩
      refine ⟨barrier, mem_flatMap.mpr ⟨(i / 8, _), ?_, built⟩, covers⟩
      refine mem_filterMap.mpr ⟨i / 8, List.mem_range.mpr (by omega), ?_⟩
      exact if_neg (ne_nil_of_mem channel)
  | false =>
    constructor
    · rintro ⟨barrier, member, covers⟩
      obtain ⟨ref, inside, built⟩ := mem_flatMap.mp member
      obtain ⟨index, -, decoded⟩ := mem_filterMap.mp inside
      dsimp only at decoded
      split at decoded
      · cases decoded
      cases decoded
      obtain ⟨register, word⟩ := (buildBarrier32_covers _ i).mp ⟨barrier, built, covers⟩
      dsimp only at register word
      split at word <;> rw [contains_iff_mem] at word <;>
        exact (twins _ _ (by omega)).mp word
    · intro member
      have bound := bounded i member
      let decoded : RegisterBarrier32 :=
        ⟨i / 16, fun ch => lanes.contains (16 * (i / 16) + 4 * ch),
          fun ch => lanes.contains (16 * (i / 16) + 4 * ch + 2)⟩
      have word : (if i % 4 < 2 then decoded.orWord0 (i / 4 % 4) else decoded.orWord1 (i / 4 % 4)) = true := by
        split <;> exact contains_iff_mem.mpr ((twins _ _ (by omega)).mp member)
      obtain ⟨barrier, built, covers⟩ := (buildBarrier32_covers decoded i).mpr ⟨rfl, word⟩
      refine ⟨barrier, mem_flatMap.mpr ⟨decoded, ?_, built⟩, covers⟩
      refine mem_filterMap.mpr ⟨i / 16, List.mem_range.mpr (by omega), if_neg ?_⟩
      intro empty
      rw [buildBarrier32, empty] at built
      cases built

lemma resolveDependencies_exec
    (meaning : Meaning) (f16 : Bool) (files : Files) :
    (resolveDependencies lanes f16).foldl Barrier.exec files =
      Replica.apply reads writes meaning files (.copy f16 lanes) := by
  funext side i
  have moved := foldl_straight (resolveDependencies_straight lanes f16) files side i
  rw [resolveDependencies_covers twins bounded] at moved
  by_cases here : side = f16 ∧ i ∈ lanes
  · rw [moved.1 here]
    simp [Replica.apply, here]
  · simp [moved.2 here, Replica.apply, here]

end

end EmuCore.Rsx.Fragment
