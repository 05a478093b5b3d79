import EmuCore.Rsx.NeonCompact

namespace EmuCore.Rsx

open Lanes List

section Changed

variable {w : Nat}

lemma umax_eq_zero (x y : BitVec w) : umax x y = 0 ↔ x = 0 ∧ y = 0 := by
  simp only [← BitVec.toNat_inj, toNat_umax]
  change max x.toNat y.toNat = 0 ↔ x.toNat = 0 ∧ y.toNat = 0
  omega

lemma foldl_umax_eq_zero (a : BitVec w) (xs : List (BitVec w)) :
    xs.foldl umax a = 0 ↔ a = 0 ∧ ∀ x ∈ xs, x = 0 := by
  induction xs generalizing a with
  | nil => simp
  | cons x xs ih => rw [foldl_cons, ih, umax_eq_zero, forall_mem_cons, and_assoc]

lemma or_xor_eq_zero (c x y : BitVec w) : c ||| (x ^^^ y) = 0 ↔ c = 0 ∧ x = y :=
  BitVec.or_eq_zero_iff.trans (and_congr_right fun _ => BitVec.xor_eq_zero_iff)

lemma vorrq_veorq_eq_zero {changed value old : List (BitVec w)} (first : changed.length = value.length)
    (second : old.length = value.length) :
    vmaxvq (vorrq changed (veorq value old)) = 0 ↔ vmaxvq changed = 0 ∧ value = old := by
  simp only [vmaxvq, foldl_umax_eq_zero, true_and]
  induction value generalizing changed old with
  | nil => simp_all [vorrq, veorq]
  | cons x value ih =>
    cases changed with
    | nil => cases first
    | cons c changed =>
      cases old with
      | nil => cases second
      | cons o old =>
        have rest := ih (Nat.succ.inj first) (Nat.succ.inj second)
        simp only [vorrq, veorq, zipWith_cons_cons, forall_mem_cons, List.cons.injEq] at rest ⊢
        rw [rest, or_xor_eq_zero]
        tauto

end Changed

lemma copyTail_ok {dst : List (Index .u32)} {i : Nat} (compare : Bool) (changed : Index .u32)
    (src : List (Index .u32)) (room : i + src.length ≤ dst.length) :
    ∃ last, copyTail compare dst changed i src = .ok (overwrite dst i (src.map byteSwap), last) ∧
      (compare = true -> (last = 0 ↔ changed = 0 ∧ src.map byteSwap = (dst.drop i).take src.length)) := by
  induction src generalizing dst i changed with
  | nil => exact ⟨changed, by simp [copyTail], by simp⟩
  | cons word src ih =>
    rw [length_cons] at room
    have inside : i < dst.length := by omega
    have size : (overwrite dst i [byteSwap word]).length = dst.length :=
      length_overwrite (by simp only [length_singleton]; omega)
    have later : (overwrite dst i [byteSwap word]).drop (i + 1) = dst.drop (i + 1) :=
      drop_overwrite (by omega) [byteSwap word]
    have join := overwrite_append (show i ≤ dst.length by omega) [byteSwap word] (src.map byteSwap)
    obtain ⟨last, ran, same⟩ := ih (if compare then changed ||| (byteSwap word ^^^ dst[i]) else changed)
      (show i + 1 + _ ≤ (dst.set i (byteSwap word)).length by rw [length_set]; omega)
    rw [set_eq_overwrite inside] at ran same
    refine ⟨last, ?_, fun compared => ?_⟩
    · rw [copyTail]
      simp only [getElem?_eq_getElem inside]
      rw [set_eq_overwrite inside, ran, map_cons]
      exact congrArg _ (congrArg (·, last) join)
    · rw [same compared, later, drop_eq_getElem_cons inside, length_cons, take_succ_cons,
        map_cons, List.cons.injEq, compared]
      simp only [if_true]
      rw [or_xor_eq_zero, and_assoc]

structure Copy.Inv (compare : Bool) (src dst : List (Index .u32)) (i : Nat) (s : Copy) : Prop where
  stored : s.dst = overwrite dst 0 ((src.take i).map byteSwap)
  full : s.changed.length = IndexType.u32.lanes
  changed : compare = true -> (vmaxvq s.changed = 0 ↔ (src.take i).map byteSwap = dst.take i)

section CopyLoop

variable {compare : Bool} {src dst : List (Index .u32)} {i : Nat} {s : Copy}

lemma length_swapped (inside : i ≤ src.length) : ((src.take i).map byteSwap).length = i := by
  rw [length_map, length_take]
  omega

lemma Copy.Inv.length (inv : s.Inv compare src dst i) (inside : i ≤ src.length)
    (room : src.length ≤ dst.length) : s.dst.length = dst.length := by
  rw [inv.stored, length_overwrite]
  rw [length_swapped inside]
  omega

lemma Copy.Inv.later (inv : s.Inv compare src dst i) (inside : i ≤ src.length) :
    s.dst.drop i = dst.drop i := by
  have dropped := drop_overwrite (Nat.zero_le dst.length) ((src.take i).map byteSwap)
  rwa [← inv.stored, length_swapped inside, zero_add] at dropped

lemma Copy.Inv.block (room : src.length ≤ dst.length) (inside : i + IndexType.u32.lanes ≤ src.length)
    (inv : s.Inv compare src dst i) :
    ∃ next, Copy.block compare src i s = .ok next ∧
      next.Inv compare src dst (i + IndexType.u32.lanes) := by
  have full := length_blockAt inside
  have size := inv.length (by omega) room
  have oldFull : ((dst.drop i).take IndexType.u32.lanes).length = IndexType.u32.lanes := by
    rw [length_take, length_drop]
    omega
  have loaded : vld1q s.dst i IndexType.u32.lanes = .ok ((dst.drop i).take IndexType.u32.lanes) := by
    rw [vld1q, if_pos (by omega), inv.later (by omega)]
  have joined := overwrite_append (Nat.zero_le dst.length) ((src.take i).map byteSwap) (blockAt src i)
  rw [← inv.stored, length_swapped (by omega), zero_add, ← take_blockAt] at joined
  have stored : vst1q s.dst i (blockAt src i) =
      .ok (overwrite dst 0 ((src.take (i + IndexType.u32.lanes)).map byteSwap)) := by
    rw [vst1q_ok (by omega), joined]
  cases compare with
  | false =>
    have ran : Copy.block false src i s =
        .ok ⟨overwrite dst 0 ((src.take (i + IndexType.u32.lanes)).map byteSwap), s.changed⟩ := by
      rw [Copy.block, loadSwapped_ok inside]
      simp only [bind, Except.bind, stored, Bool.false_eq_true, if_false]
    exact ⟨_, ran, rfl, inv.full, fun same => by cases same⟩
  | true =>
    have ran : Copy.block true src i s =
        .ok ⟨overwrite dst 0 ((src.take (i + IndexType.u32.lanes)).map byteSwap),
          vorrq s.changed (veorq (blockAt src i) ((dst.drop i).take IndexType.u32.lanes))⟩ := by
      rw [Copy.block, loadSwapped_ok inside]
      simp only [bind, Except.bind, stored, loaded, if_true]
    refine ⟨_, ran, rfl, ?_, fun _ => ?_⟩
    · simp [vorrq, veorq, inv.full, full, oldFull]
    · rw [vorrq_veorq_eq_zero (inv.full.trans full.symm) (oldFull.trans full.symm), inv.changed rfl,
        take_blockAt]
      exact (append_eq_take_iff (length_swapped (by omega)) (by omega) _ _).symm

lemma copyDataSwapU32Neon_eq (room : src.length ≤ dst.length) :
    copyDataSwapU32Neon compare dst src =
      .ok (if compare then some (decide (src.map byteSwap ≠ dst.take src.length)) else none,
        overwrite dst 0 (src.map byteSwap)) := by
  have zero : vmaxvq (vdupq IndexType.u32.lanes (0 : Index .u32)) = 0 := by decide
  have start : Copy.Inv compare src dst 0 ⟨dst, vdupq IndexType.u32.lanes 0⟩ :=
    ⟨overwrite_nil.symm, length_replicate, fun _ => iff_of_true zero rfl⟩
  obtain ⟨i, s, ran, inside, _, inv⟩ := forBlocks_ok (IndexType.lanes_pos .u32)
    (fun i s inside inv => Copy.Inv.block room inside inv) (Nat.sub_le _ _) (Nat.zero_le _) start
  have size := inv.length inside room
  obtain ⟨last, finished, same⟩ := copyTail_ok compare 0 (src.drop i)
    (show i + _ ≤ s.dst.length by rw [length_drop]; omega)
  have joined := overwrite_append (Nat.zero_le dst.length) ((src.take i).map byteSwap)
    ((src.drop i).map byteSwap)
  rw [← inv.stored, length_swapped inside, zero_add, ← map_append, take_append_drop] at joined
  rw [copyDataSwapU32Neon, ran]
  simp only [bind, Except.bind, finished, joined]
  cases compare with
  | false => rfl
  | true =>
    have both : vmaxvq s.changed ||| last = 0 ↔ src.map byteSwap = dst.take src.length := by
      have whole := append_eq_take_iff (length_swapped inside) (show i ≤ dst.length by omega)
        ((src.drop i).map byteSwap) (src.drop i).length
      rw [← map_append, take_append_drop, length_drop, Nat.add_sub_cancel' inside] at whole
      rw [whole, ← inv.changed rfl, ← inv.later inside, ← length_drop]
      exact BitVec.or_eq_zero_iff.trans (and_congr_right fun _ => (same rfl).trans (and_iff_right rfl))
    simp only [if_true, ne_eq, both]

end CopyLoop

variable {t : IndexType}

theorem neon_eq_scalar (src : List (Index t)) (dst : Dst t) (restart : Index t)
    (old words : List (Index .u32)) (room : src.length ≤ dst.length) (roomOld : words.length ≤ old.length) :
    (∃ result, uploadUntouchedNeon none src dst = .ok result ∧
      uploadUntouchedNaive .empty dst 0 (src.map byteSwap) = .ok result) ∧
    (∃ result, uploadUntouchedNeon (some restart) src dst = .ok result ∧
      uploadRestartNaive restart .empty dst 0 (src.map byteSwap) = .ok result) ∧
    (∃ bounds written vector scalar,
      uploadSwappedNeonSkipRestart src dst restart = .ok (bounds, written, vector) ∧
      uploadSkipRestart restart .empty dst 0 (src.map byteSwap) = .ok (bounds, written, scalar) ∧
      vector.take written = scalar.take written) ∧
    copyDataSwapU32Neon true old words =
      .ok (some (decide (words.map byteSwap ≠ old.take words.length)), overwrite old 0 (words.map byteSwap)) := by
  have inside : 0 + src.length ≤ dst.length := by omega
  have plain := uploadTail_eq none .empty src inside
  have marked := uploadTail_eq (some restart) .empty src inside
  refine ⟨?_, ?_, ?_, copyDataSwapU32Neon_eq roomOld⟩
  · exact ⟨_, (uploadUntouchedNeon_eq none room).trans plain, (uploadUntouchedNaive_eq _ _ _ _).trans plain⟩
  · exact ⟨_, (uploadUntouchedNeon_eq (some restart) room).trans marked,
      (uploadRestartNaive_eq _ _ _ _ _).trans marked⟩
  obtain ⟨vector, ran, taken⟩ := uploadSwappedNeonSkipRestart_eq restart room
  have scalar := (uploadSkipRestart_eq restart .empty dst 0 src).trans (compactTail_eq _ _ _ inside)
  rw [zero_add] at scalar
  refine ⟨_, _, vector, _, ran, scalar, taken.trans ?_⟩
  have first := take_overwrite (Nat.zero_le dst.length) ((kept restart (src.map byteSwap)).map some) []
  rw [append_nil, length_map, zero_add] at first
  exact first.symm

theorem neon_eq_scalar_nine :
    let src : List (Index .u16) := [0x0100, 0xffff, 0x0200, 0x0000, 0xffff, 0x0300, 0x0400, 0x0500, 0xffff]
    ∃ bounds written vector scalar,
      uploadSwappedNeonSkipRestart src (List.replicate 9 none) 0xffff = .ok (bounds, written, vector) ∧
      uploadSkipRestart 0xffff .empty (List.replicate 9 none) 0 (src.map byteSwap) =
        .ok (bounds, written, scalar) ∧
      vector.take written = scalar.take written :=
  (neon_eq_scalar _ _ _ [1, 2, 3, 4, 5] [1, 2, 3, 4, 5] (by decide) (by decide)).2.2.1

end EmuCore.Rsx
