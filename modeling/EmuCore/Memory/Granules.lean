import EmuCore.Memory.CheckAddr
import EmuCore.Memory.VmMoves

namespace EmuCore.Memory

open PageFlags BlockFlags Nat

lemma granule_within {g first count i j : Nat} (positive : 0 < g) (starts : g ∣ first)
    (whole : g ∣ count) (same : i / g = j / g) (within : first ≤ i ∧ i < first + count) :
    first ≤ j ∧ j < first + count := by
  obtain ⟨m, rfl⟩ := starts
  obtain ⟨n, rfl⟩ := whole
  have low : m ≤ i / g := (le_div_iff_mul_le positive).mpr (by rw [mul_comm]; exact within.1)
  have high : i / g < m + n :=
    (div_lt_iff_lt_mul positive).mpr (by rw [mul_comm, mul_add]; exact within.2)
  rw [same] at low high
  rw [le_div_iff_mul_le positive, mul_comm] at low
  rw [div_lt_iff_lt_mul positive, mul_comm, mul_add] at high
  exact ⟨low, high⟩

-- Ranges that do not cut the granule they start in, nor the one they end in.
lemma granule_uncut {g first last i j : Nat} (positive : 0 < g) (same : i / g = j / g)
    (within : first ≤ i ∧ i < last) (starts : i / g = first / g -> first % g = 0)
    (ends : i / g = (last - 1) / g -> last % g = 0) : first ≤ j ∧ j < last := by
  constructor
  · by_contra before
    have here : i / g = first / g := by
      apply le_antisymm
      · rw [same]
        exact Nat.div_le_div_right (by omega)
      · exact Nat.div_le_div_right within.1
    have parts := div_add_mod first g
    rw [starts here, ← here, same] at parts
    have := mul_div_le j g
    omega
  · by_contra beyond
    have here : i / g = (last - 1) / g := by
      apply le_antisymm
      · exact Nat.div_le_div_right (by omega)
      · rw [same]
        exact Nat.div_le_div_right (by omega)
    have parts := div_add_mod last g
    rw [ends here] at parts
    have fewer : (last - 1) / g < last / g :=
      (div_lt_iff_lt_mul positive).mpr (by rw [mul_comm]; omega)
    have := Nat.div_le_div_right (c := g) (not_lt.mp beyond)
    omega

lemma granule_pos (value : PageFlags) : 0 < granule value := by
  rcases granule_cases value with size | size | size <;> rw [size] <;> decide

/-- Pages that are marked as parts of a larger page are alike, and they belong to one entry. -/
structure Vm.Granular (s : Vm) : Prop where
  core : s.Core
  uniform : ∀ {i j}, s.pages i &&& allocated ≠ 0 ->
    i / granule (s.pages i) = j / granule (s.pages i) -> s.pages j = s.pages i
  whole : ∀ {k a e i j}, s.Holds k a e -> Within i a e.size ->
    i / granule (s.pages i) = j / granule (s.pages i) -> Within j a e.size

namespace Vm

variable {s : Vm} {k : Nat} {b : Block}

lemma Empty.granular (empty : s.Empty) : s.Granular := by
  refine ⟨empty.core, fun {i j} used => ?_, fun holds within => ?_⟩
  · rw [empty.1 i] at used
    exact absurd (by decide) used
  · have used := empty.core.used holds within
    rw [empty.1] at used
    exact absurd (by decide) used

lemma Granular.addBlock (granular : s.Granular) (area : Area) : (s.addBlock area).Granular where
  core := granular.core.addBlock area
  uniform := fun used same => granular.uniform used same
  whole := fun holds within same => granular.whole ((holds_addBlock s area _ _ _).mp holds) within same

lemma Granular.placed (granular : s.Granular) (at_ : s.blocks[k]? = some b) {a size : Nat}
    {bflags : BlockFlags} {next : Block} {mapped : Pages}
    (placed : Placed b s.pages a size bflags next mapped)
    (starts : granule (allocFlags bflags ||| allocated) ∣ a / 4096)
    (whole : granule (allocFlags bflags ||| allocated) ∣ size / 4096) :
    (s.put k mapped next).Granular := by
  have core := granular.core.placed at_ placed
  obtain ⟨shm, rfl⟩ := placed.next
  have inside : ∀ {i}, Within i a size -> mapped i = allocFlags bflags ||| allocated := fun within => by
    rw [placed.mapped, fill_inside within.1 within.2]
  have outside : ∀ {i}, ¬Within i a size -> mapped i = s.pages i := fun {i} within => by
    rw [placed.mapped]
    exact fill_outside (by simp only [Within] at within; omega)
  have old : ∀ {i}, s.pages i &&& allocated ≠ 0 -> ¬Within i a size := fun used within => by
    rw [placed.free _ within.1 within.2] at used
    exact used (by decide)
  refine ⟨core, fun {i j} used same => ?_, fun {k' a' e i j} holds within same => ?_⟩
  · change mapped i &&& allocated ≠ 0 at used
    change i / granule (mapped i) = j / granule (mapped i) at same
    change mapped j = mapped i
    by_cases here : Within i a size
    · rw [inside here] at same ⊢
      exact inside (granule_within (granule_pos _) starts whole same here)
    · rw [outside here] at used same ⊢
      have alike := granular.uniform used same
      rwa [outside (old (by rwa [alike]))]
  · change i / granule (mapped i) = j / granule (mapped i) at same
    rcases (holds_record at_ mapped a size shm k' a' e).mp holds with ⟨⟨rfl, rfl⟩, rfl⟩ | ⟨_, before⟩
    · rw [inside within] at same
      exact granule_within (granule_pos _) starts whole same within
    · rw [outside (old (granular.core.used before within))] at same
      exact granular.whole before within same

lemma Granular.removed (granular : s.Granular) (at_ : s.blocks[k]? = some b) {a : Nat} {e : Entry}
    (found : b.map.find? a = some e) :
    (s.put k (fill s.pages (a / 4096) (e.size / 4096) 0) (b.forget a)).Granular := by
  have holds := (holds_here at_).mpr found
  have outside : ∀ {i}, ¬Within i a e.size ->
      fill s.pages (a / 4096) (e.size / 4096) 0 i = s.pages i := fun {i} within =>
    fill_outside (by simp only [Within] at within; omega)
  refine ⟨granular.core.removed at_ found, fun {i j} used same => ?_,
    fun {k' a' e' i j} left within same => ?_⟩
  · change fill _ _ _ _ i &&& allocated ≠ 0 at used
    change i / granule (fill _ _ _ _ i) = j / granule (fill _ _ _ _ i) at same
    change fill _ _ _ _ j = fill _ _ _ _ i
    have other : ¬Within i a e.size := fun here => by
      rw [fill_inside here.1 here.2] at used
      exact used (by decide)
    rw [outside other] at used same ⊢
    have alike := granular.uniform used same
    rwa [outside fun here => other (granular.whole holds here (by rw [alike, same]))]
  · obtain ⟨differs, old⟩ := (holds_forget at_ _ a k' a' e').mp left
    change i / granule (fill _ _ _ _ i) = j / granule (fill _ _ _ _ i) at same
    rw [outside fun here => differs (granular.core.apart old holds within here)] at same
    exact granular.whole old within same

end Vm

def sizeFlags : PageFlags := allocated ||| size64k ||| size1m

def protectEnd (pages : Pages) (addr size : Nat) : Nat :=
  addr / 4096 + roundedSize (pages (addr / 4096)) size / 4096

/-- Pages of 1 MiB are allocated as a whole, and page_protect changes neither the size of a page nor
only a part of it. -/
def Call.Granular (s : Vm) : Call -> Prop
  | .alloc k size src align flags fresh => ∀ b ∈ s.blocks[k]?,
    allocFlags (b.area.callFlags src flags) &&& size1m ≠ 0 ->
      (∀ result ∈ (b.alloc s.pages size.toNat src align.toNat flags fresh).toOption,
        0x100000 ∣ result.1) ∧
      0x100000 ∣ paddedSize (b.area.callFlags src flags) size.toNat
  | .falloc k addr size src flags _ => ∀ b ∈ s.blocks[k]?,
    allocFlags (b.area.callFlags src flags) &&& size1m ≠ 0 ->
      0x100000 ∣ pageStart (b.area.callFlags src flags) addr.toNat ∧
      0x100000 ∣ fallocSize (b.area.callFlags src flags) addr.toNat size.toNat
  | .pageProtect addr size _ set clear =>
    set &&& sizeFlags = clear &&& sizeFlags ∧
      granule (s.pages (addr.toNat / 4096)) ∣ addr.toNat / 4096 ∧
      granule (s.pages (protectEnd s.pages addr.toNat size.toNat - 1)) ∣
        protectEnd s.pages addr.toNat size.toNat
  | _ => True

instance (s : Vm) (c : Call) : Decidable (c.Granular s) :=
  match c with
  | .alloc .. => inferInstanceAs (Decidable (∀ _ ∈ _, _))
  | .falloc .. => inferInstanceAs (Decidable (∀ _ ∈ _, _))
  | .pageProtect .. => inferInstanceAs (Decidable (_ ∧ _))
  | .map .. | .findMap .. | .dealloc .. => inferInstanceAs (Decidable True)

def granularCalls : Transition.System Vm Call :=
  (calls (· = initial)).guarded fun s c => c.Granular s

lemma part_even {set clear mask part : PageFlags} (even : set &&& mask = clear &&& mask)
    (has : Has mask part) : set &&& part = clear &&& part := by
  rw [← has, ← BitVec.and_assoc, even, BitVec.and_assoc]

lemma changed_granule {set clear : PageFlags} (even : set &&& sizeFlags = clear &&& sizeFlags)
    (value : PageFlags) :
    granule (changed (set &&& ~~~(set &&& clear)) (clear &&& ~~~(set &&& clear)) value) =
      granule value := by
  have large : Has sizeFlags size1m := rfl
  have medium : Has sizeFlags size64k := rfl
  rw [granule, changed_keeps (part_even even large), changed_keeps (part_even even medium), granule]

lemma allocFlags_64k (bflags : BlockFlags) (marked : allocFlags bflags &&& size64k ≠ 0) :
    minPageSize bflags = 0x10000 := by
  have only : bflags &&& blockSizeMask = blockSize64k := by
    by_contra other
    apply marked
    simp only [allocFlags, if_neg other]
    split_ifs <;> decide
  have none : bflags &&& blockSize4k = 0 := by
    rw [show blockSize4k = blockSizeMask &&& blockSize4k by decide, ← BitVec.and_assoc, only]
    decide
  rw [minPageSize, none, if_neg (by simp)]

lemma granule_alloc {bflags : BlockFlags} {x : Nat} (unit : minPageSize bflags ∣ x)
    (large : allocFlags bflags &&& size1m ≠ 0 -> 0x100000 ∣ x) :
    granule (allocFlags bflags ||| allocated) ∣ x / 4096 := by
  have apart : ∀ value : PageFlags, (value ||| allocated) &&& size1m = value &&& size1m ∧
      (value ||| allocated) &&& size64k = value &&& size64k := by decide
  rw [granule, (apart _).1, (apart _).2]
  split
  next marked =>
    obtain ⟨m, rfl⟩ := large marked
    exact ⟨m, by omega⟩
  split
  next marked =>
    rw [allocFlags_64k bflags marked] at unit
    obtain ⟨m, rfl⟩ := unit
    exact ⟨m, by omega⟩
  next => exact one_dvd _

section Bounded

variable {pages next : Pages} {b block : Block} {addr size : Nat}

lemma fill_bounded (bounded : Bounded pages) (first count : Nat) : Bounded (fill pages first count 0) := by
  intro i high
  unfold fill
  split
  next => decide
  next => exact bounded i high

lemma Placed.pages_bounded {bflags : BlockFlags} (placed : Placed b pages addr size bflags block next)
    (bounded : Bounded pages) : Bounded next := by
  intro i high
  have limit := b.area.bounded
  have inside := placed.bounded
  rw [placed.mapped, fill_outside (.inr (by omega))]
  exact bounded i high

lemma pageUnmap_bounded {unmapped : Nat} (bounded : Bounded pages) :
    pageUnmap pages addr size = .ok (unmapped, next) -> Bounded next := by
  fun_cases pageUnmap pages addr size with
  | case4 =>
    rintro ⟨⟩
    exact fill_bounded bounded _ _
  | _ => rintro ⟨⟩

lemma dealloc_bounded {src : Option Nat} {result : Except Throw Nat} (bounded : Bounded pages) :
    b.dealloc pages addr src = (result, next, block) -> Bounded next := by
  fun_cases Block.dealloc b pages addr src with
  | case4 _ _ _ _ _ unmapped | case5 _ _ _ _ _ unmapped =>
    rintro ⟨⟩
    exact pageUnmap_bounded bounded unmapped
  | _ =>
    rintro ⟨⟩
    exact bounded

lemma checkAddr_inside {flags : PageFlags} (checked : checkAddr pages addr flags size = true) :
    size = 0 ∨ addr + size ≤ 2 ^ 32 := by
  unfold checkAddr at checked
  split at checked
  next none => exact .inl none
  split at checked
  next => cases checked
  next => exact .inr (by omega)

lemma pageProtect_bounded {test set clear : PageFlags} {result : Bool} (small : addr < 2 ^ 32)
    (bounded : Bounded pages) (ran : pageProtect pages addr size test set clear = .ok (result, next)) :
    Bounded next := by
  rcases pageProtect_cases ran with ⟨rfl, _⟩ | ⟨_, checked, rfl⟩
  · exact bounded
  intro i high
  have inside := checkAddr_inside checked
  rw [(protectRange_done pages _ _ _ _).rest i (by omega)]
  exact bounded i high

end Bounded

namespace Vm

variable {s next : Vm}

lemma Granular.protected_ (granular : s.Granular) {set clear : PageFlags} {first count : Nat}
    (even : set &&& sizeFlags = clear &&& sizeFlags) (starts : granule (s.pages first) ∣ first)
    (ends : granule (s.pages (first + count - 1)) ∣ first + count) :
    Granular ⟨protectRange s.pages (set &&& ~~~(set &&& clear)) (clear &&& ~~~(set &&& clear)) first
      count, s.blocks⟩ := by
  have done := protectRange_done s.pages (set &&& ~~~(set &&& clear)) (clear &&& ~~~(set &&& clear))
    first count
  generalize protectRange s.pages _ _ first count = pages at done
  have kept : ∀ i, pages i &&& allocated = s.pages i &&& allocated := fun i => by
    rcases done.written i with same | new
    · rw [same]
    · rw [new, changed_keeps (part_even even (show Has sizeFlags allocated from rfl))]
  have grain : ∀ i, granule (pages i) = granule (s.pages i) := fun i => by
    rcases done.written i with same | new
    · rw [same]
    · rw [new, changed_granule even]
  refine ⟨granular.core.repaint kept, fun {i j} used same => ?_, fun {k a e i j} holds within same => ?_⟩
  · dsimp only at used same ⊢
    rw [kept] at used
    rw [grain] at same
    have alike : ∀ {x}, i / granule (s.pages i) = x / granule (s.pages i) -> s.pages x = s.pages i :=
      fun here => granular.uniform used here
    have size : ∀ {x}, i / granule (s.pages i) = x / granule (s.pages i) ->
        granule (s.pages x) = granule (s.pages i) := fun here => by rw [alike here]
    have positive := granule_pos (s.pages i)
    generalize granule (s.pages i) = g at *
    by_cases touched : ∃ x, i / g = x / g ∧ first ≤ x ∧ x < first + count
    · obtain ⟨x, here, within⟩ := touched
      have inside : ∀ {y}, i / g = y / g -> first ≤ y ∧ y < first + count := fun member => by
        refine granule_uncut positive (here.symm.trans member) within (fun atStart => ?_) fun atEnd => ?_
        · rw [size (here.trans atStart)] at starts
          exact Nat.mod_eq_zero_of_dvd starts
        · rw [size (here.trans atEnd)] at ends
          exact Nat.mod_eq_zero_of_dvd ends
      have between : ∀ {y z}, y ≤ z -> i / g = y / g -> i / g = z / g -> pages z = pages y := by
        intro y z ordered low high
        refine done.run (inside low).1 ordered (inside high).2 fun x after until_ => ?_
        have here : i / g = x / g := by
          apply le_antisymm
          · rw [low]
            exact Nat.div_le_div_right after
          · rw [high]
            exact Nat.div_le_div_right until_
        rw [alike here, alike low]
      rcases le_total i j with ordered | ordered
      · exact between ordered rfl same
      · exact (between ordered same rfl).symm
    · have outside : ∀ {x}, i / g = x / g -> pages x = s.pages x := fun {x} here => by
        rcases lt_or_ge x first with before | after
        · exact done.early x before
        · exact done.rest x (not_lt.mp fun inside => touched ⟨x, here, after, inside⟩)
      rw [outside same, outside rfl, alike same]
  · rw [grain] at same
    exact granular.whole holds within same

lemma Granular.move {c : Call} (granular : s.Granular) (whole : c.Granular s)
    (move : s.Move c next) : next.Granular := by
  cases move with
  | stay => exact granular
  | map made | findMap made => exact granular.addBlock _
  | alloc at_ ran from_ placed =>
    have large := whole _ at_
    rw [ran] at large
    exact granular.placed at_ placed
      (granule_alloc placed.whole.1 fun marked => (large marked).1 _ rfl)
      (granule_alloc placed.whole.2 fun marked => (large marked).2)
  | falloc at_ ran from_ shared placed =>
    have large := whole _ at_
    exact granular.placed at_ placed
      (granule_alloc placed.whole.1 fun marked => (large marked).1)
      (granule_alloc placed.whole.2 fun marked => (large marked).2)
  | dealloc at_ ran =>
    rcases dealloc_cases granular.core at_ ran with same | ⟨e, found, rfl, rfl⟩
    · rwa [same]
    · exact granular.removed at_ found
  | pageProtect ran =>
    rcases pageProtect_cases ran with ⟨rfl, _⟩ | ⟨_, _, rfl⟩
    · exact granular
    · exact granular.protected_ whole.1 whole.2.1 whole.2.2

lemma Move.bounded {c : Call} (move : s.Move c next) (bounded : Bounded s.pages) :
    Bounded next.pages := by
  cases move with
  | stay | map made | findMap made => exact bounded
  | alloc at_ ran from_ placed | falloc at_ ran from_ shared placed => exact placed.pages_bounded bounded
  | dealloc at_ ran => exact dealloc_bounded bounded ran
  | pageProtect ran => exact pageProtect_bounded (BitVec.isLt _) bounded ran

lemma initial_empty : initial.Empty := ⟨fun _ => rfl, by decide⟩

lemma calls_bounded (reach : (calls (· = initial)).Reachable s) : Bounded s.pages := by
  refine reach.invariant (P := fun s => Bounded s.pages) ?_ ?_
  · rintro s rfl i _
    rw [initial_empty.1 i]
    decide
  · intro s c next bounded move
    exact (step_move move).bounded bounded

lemma Granular.forward (granular : s.Granular) (bounded : Bounded s.pages) : Forward s.pages := by
  intro i j from_ before used
  have inside : i < 2 ^ 20 := by
    by_contra outside
    exact used (bounded i (by omega))
  rw [nextPage_eq (by omega)] at before
  have same : i / granule (s.pages i) = j / granule (s.pages i) := by
    apply le_antisymm
    · exact Nat.div_le_div_right from_
    · exact Nat.lt_succ_iff.mp ((Nat.div_lt_iff_lt_mul (granule_pos _)).mpr before)
  rw [granular.uniform used same]
  exact BitVec.and_self

lemma granularCalls_inv (reach : granularCalls.Reachable s) : s.Granular ∧ Bounded s.pages := by
  refine reach.invariant (P := fun s => s.Granular ∧ Bounded s.pages) ?_ ?_
  · rintro s rfl
    exact ⟨initial_empty.granular, calls_bounded (.init rfl)⟩
  rintro s c next ⟨granular, bounded⟩ move
  obtain ⟨whole, move⟩ := Transition.System.guarded_step move
  have moved := step_move move
  exact ⟨granular.move whole moved, moved.bounded bounded⟩

theorem check_addr_exact (reach : (calls (· = initial)).Reachable s) :
    (CheckExact s.pages ↔ Forward s.pages) ∧
      (granularCalls.Reachable s -> CheckExact s.pages) := by
  constructor
  · exact checkExact_iff (calls_bounded reach)
  · intro reach
    obtain ⟨granular, bounded⟩ := granularCalls_inv reach
    exact (granular.forward bounded).exact bounded

def wholePages : List Call :=
  [.map 0x20000000 0x100000 0, .alloc 3 0x100000 none 0x100000 0 7, .alloc 0 0x10000 none 0x10000 0 8,
    .pageProtect 0xC0000000 0x1000 0 0 writable]

theorem check_addr_exact_whole :
    ∃ s, granularCalls.run initial wholePages = some s ∧ CheckExact s.pages ∧
      checkAddr s.pages 0x20000000 writable 0x100000 = true ∧
      checkAddr s.pages 0xC0000000 writable 0x10000 = false := by
  have ran := (Option.some_get (show (granularCalls.run initial wholePages).isSome by decide +kernel)).symm
  have start : granularCalls.Reachable initial := .init rfl
  have reach := start.run wholePages ran
  exact ⟨_, ran, (check_addr_exact reach.unguarded).2 reach, by decide +kernel, by decide +kernel⟩

def smallPart : List Call := [.map 0x20000000 0x100000 0, .alloc 3 0x10000 none 0x10000 0 7]

def cutPage : List Call :=
  [.alloc 0 0x20000 none 0x10000 0 7, .pageProtect 0xC0008000 0x1000 0 0 writable]

theorem check_addr_skips :
    (∃ s, (calls (· = initial)).run initial smallPart = some s ∧
      checkAddr s.pages 0x20000000 0 0x20000 = true ∧ s.pages 0x20010 &&& allocated = 0) ∧
    ∃ s, (calls (· = initial)).run initial cutPage = some s ∧
      checkAddr s.pages 0xC0000000 writable 0x10000 = true ∧ s.pages 0xC0008 &&& writable = 0 := by
  have small := (Option.some_get
    (show ((calls (· = initial)).run initial smallPart).isSome by decide +kernel)).symm
  have cut := (Option.some_get
    (show ((calls (· = initial)).run initial cutPage).isSome by decide +kernel)).symm
  exact ⟨⟨_, small, by decide +kernel, by decide +kernel⟩, _, cut, by decide +kernel, by decide +kernel⟩

end Vm

end EmuCore.Memory
