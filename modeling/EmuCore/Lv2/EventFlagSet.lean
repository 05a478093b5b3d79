import EmuCore.Lv2.EventFlagSequential

namespace EmuCore.Lv2.EventFlag

open List

def mask (bitptn : Pattern) : List Waiter -> Pattern -> Pattern
  | [], _ => 0
  | w :: rest, v =>
    match checkPattern v w.bitptn w.mode with
    | some next =>
      dependantMaskOr bitptn v w ||| (if next = 0 then 0 else mask bitptn rest next)
    | none => mask bitptn rest v

def judge (v : Verdicts) (gpr3 : ThreadId -> Bool) (t : ThreadId) : Bool :=
  if t ∈ v.accepted.map Waiter.thread then true
  else if t ∈ v.refused.map Waiter.thread then false
  else gpr3 t

section

variable (bitptn : Pattern) (list : List Waiter) (p : Pass)

include bitptn list p

lemma passOver_toWrite :
    (passOver bitptn list p).toWrite = (sequential list p.toWrite).pattern := by
  induction list generalizing p with
  | nil => rfl
  | cons w rest ih =>
    cases checked : checkPattern p.toWrite w.bitptn w.mode with
    | some next =>
      simp only [passOver, sequential, Pass.mark, checked]
      split
      · rfl
      · exact ih _
    | none =>
      simp only [passOver, sequential, Pass.mark, checked]
      exact ih _

lemma passOver_count :
    (passOver bitptn list p).count = p.count + (sequential list p.toWrite).accepted.length := by
  induction list generalizing p with
  | nil => rfl
  | cons w rest ih =>
    cases checked : checkPattern p.toWrite w.bitptn w.mode with
    | some next =>
      simp only [passOver, sequential, Pass.mark, checked]
      split
      · rfl
      · rw [ih]
        simp only [Pass.accept, length_cons]
        omega
    | none =>
      simp only [passOver, sequential, Pass.mark, checked]
      exact ih _

lemma passOver_mask :
    (passOver bitptn list p).dependantMask = p.dependantMask ||| mask bitptn list p.toWrite := by
  induction list generalizing p with
  | nil => simp [passOver, mask]
  | cons w rest ih =>
    cases checked : checkPattern p.toWrite w.bitptn w.mode with
    | some next =>
      simp only [passOver, mask, Pass.mark, checked]
      split
      · simp [Pass.accept]
      · rw [ih]
        simp only [Pass.accept, BitVec.or_assoc]
    | none =>
      simp only [passOver, mask, Pass.mark, checked]
      exact ih _

end

variable {v : Pattern}

lemma sequential_mem {list : List Waiter} {t : ThreadId} (outside : t ∉ list.map Waiter.thread) :
    t ∉ (sequential list v).accepted.map Waiter.thread ∧
      t ∉ (sequential list v).refused.map Waiter.thread := by
  have parts := ((sequential_perm list v).map Waiter.thread).mem_iff.not.mp outside
  simp only [map_append, mem_append, not_or] at parts
  exact parts.1

lemma passOver_gpr3 (bitptn : Pattern) (list : List Waiter) (p : Pass)
    (distinct : (list.map Waiter.thread).Nodup) :
    (passOver bitptn list p).regs.gpr3 = judge (sequential list p.toWrite) p.regs.gpr3 := by
  induction list generalizing p with
  | nil =>
    funext t
    simp [passOver, sequential, judge]
  | cons w rest ih =>
    obtain ⟨outside, later⟩ := nodup_cons.mp distinct
    cases checked : checkPattern p.toWrite w.bitptn w.mode with
    | some next =>
      have apart := sequential_mem (v := next) outside
      simp only [passOver, sequential, Pass.mark, checked]
      split
      · funext t
        by_cases same : t = w.thread <;> simp [judge, Pass.accept, same]
      rw [ih _ later]
      funext t
      by_cases same : t = w.thread
      · simp [judge, Pass.accept, same, apart.1, apart.2]
      · simp [judge, Pass.accept, same]
    | none =>
      have apart := sequential_mem (v := p.toWrite) outside
      simp only [passOver, sequential, Pass.mark, checked]
      rw [ih _ later]
      funext t
      by_cases same : t = w.thread
      · simp [judge, Pass.refuse, same, apart.1, apart.2]
      · simp [judge, Pass.refuse, same]

lemma checkClears_and (v keep bitptn : Pattern) (mode : Mode) :
    checkClears (v &&& keep) bitptn mode = checkClears v bitptn mode &&& keep := by
  unfold checkClears
  split
  · rfl
  · rw [BitVec.and_assoc, BitVec.and_comm keep, ← BitVec.and_assoc]
  · simp

variable {bitptn : Pattern}

lemma checkPattern_some {next : Pattern} {mode : Mode} :
    checkPattern v bitptn mode = some next ↔
      checkRefuses v bitptn mode = false ∧ checkClears v bitptn mode = next := by
  unfold checkPattern
  split
  next refused => simp [refused]
  next passed => simpa using fun _ => passed

variable {pattern : Pattern}

-- Bits `lost` since the snapshot that no accepted waiter depends on do not change a verdict.
lemma checkPattern_stable {next lost : Pattern} {w : Waiter} (passed : checkPattern v w.bitptn w.mode = some next)
    (inside : Below v (pattern ||| bitptn)) (refused : w.refuses pattern = true)
    (apart : ∀ i, lost.getLsbD i = true -> bitptn.getLsbD i = false)
    (free : ∀ i, (dependantMaskOr bitptn v w).getLsbD i = true -> lost.getLsbD i = false) :
    checkPattern (v &&& ~~~lost) w.bitptn w.mode = some (next &&& ~~~lost) := by
  obtain ⟨accepts, clears⟩ := checkPattern_some.mp passed
  refine checkPattern_some.mpr ⟨?_, by rw [checkClears_and, clears]⟩
  have kept : ∀ i, v.getLsbD i = true -> lost.getLsbD i = false -> (v &&& ~~~lost).getLsbD i = true := by
    intro i set clear
    have bound : i < 64 := BitVec.lt_of_getLsbD set
    rw [BitVec.getLsbD_and, BitVec.getLsbD_not, set, clear]
    simp [bound]
  unfold Waiter.refuses at refused
  unfold checkRefuses at *
  cases kind : w.mode.kind with
  | waitAnd =>
    simp only [kind, bne_eq_false_iff_eq, and_eq_right] at accepts ⊢
    intro i wanted
    refine kept i (accepts i wanted) ?_
    by_cases given : bitptn &&& w.bitptn &&& v = w.bitptn
    · -- All wanted bits are set by this call.
      have both := and_below_left _ _ i (given.symm ▸ wanted)
      cases gone : lost.getLsbD i with
      | false => rfl
      | true => exact absurd (and_below_left _ _ i both) (by simp [apart i gone])
    · exact free i (by simpa [dependantMaskOr, kind, given] using wanted)
  | waitOr =>
    simp only [kind, beq_eq_false_iff_ne, ne_eq, and_eq_zero, beq_iff_eq] at accepts refused ⊢
    intro none
    refine accepts fun i wanted => ?_
    -- The waiter was refused by the snapshot, so what it matches is set by this call.
    cases set : v.getLsbD i with
    | false => rfl
    | true =>
      have given : bitptn.getLsbD i = true := by
        have either := inside i set
        rw [BitVec.getLsbD_or, refused i wanted, Bool.false_or] at either
        exact either
      have clear : lost.getLsbD i = false := by
        cases gone : lost.getLsbD i with
        | false => rfl
        | true => exact absurd given (by simp [apart i gone])
      exact absurd (kept i set clear) (by simp [none i wanted])

lemma sequential_stable (lost : Pattern) (list : List Waiter) (inside : Below v (pattern ||| bitptn))
    (refused : ∀ w ∈ list, w.refuses pattern = true) (apart : ∀ i, lost.getLsbD i = true -> bitptn.getLsbD i = false)
    (free : ∀ i, (mask bitptn list v).getLsbD i = true -> lost.getLsbD i = false) :
    (sequential list (v &&& ~~~lost)).accepted = (sequential list v).accepted ∧
      (sequential list (v &&& ~~~lost)).pattern = (sequential list v).pattern &&& ~~~lost := by
  induction list generalizing v with
  | nil => exact ⟨rfl, rfl⟩
  | cons w rest ih =>
    have others : ∀ u ∈ rest, u.refuses pattern = true := fun u member =>
      refused u (mem_cons_of_mem w member)
    cases passed : checkPattern v w.bitptn w.mode with
    | none =>
      have still := checkPattern_none.mpr
        (Waiter.refuses_mono (and_below_left v (~~~lost)) (checkPattern_none.mp passed))
      simp only [mask, passed] at free
      simpa only [sequential, passed, still] using ih inside others free
    | some next =>
      simp only [mask, passed, BitVec.getLsbD_or, Bool.or_eq_true] at free
      have same := checkPattern_stable passed inside (refused w mem_cons_self) apart
        fun i set => free i (.inl set)
      by_cases zero : next = 0
      · simp [sequential, passed, same, zero]
      have later := ih ((checkPattern_below passed).trans inside) others
        fun i set => free i (.inr (by rw [if_neg zero]; exact set))
      simp only [sequential, passed, same, zero, if_false]
      split
      next gone =>
        -- Only lost bits are left: nobody behind this waiter is accepted any more.
        have silent : sequential rest 0 = ⟨[], rest, [], 0⟩ := sequential_refused fun u member =>
          Waiter.refuses_mono (fun i set => by simp at set) (others u member)
        rw [gone, silent] at later
        exact ⟨by rw [← later.1], by rw [gone, ← later.2]⟩
      next => exact ⟨by rw [later.1], later.2⟩

def afterRounds (list : List Waiter) (bitptn : Pattern) :
    List Pattern -> (ThreadId -> Bool) -> ThreadId -> Bool
  | [], gpr3 => gpr3
  | pattern :: later, gpr3 =>
    afterRounds list bitptn later (judge (sequential list (pattern ||| bitptn)) gpr3)

structure LoopSpec (list : List Waiter) (bitptn : Pattern) (gpr3 : ThreadId -> Bool) (out : Outcome) :
    Prop where
  count : out.count = (sequential list (out.last ||| bitptn)).accepted.length
  gpr3 : out.regs.gpr3 =
    judge (sequential list (out.last ||| bitptn)) (afterRounds list bitptn out.earlier gpr3)
  accepted : (sequential list (out.x ||| bitptn)).accepted =
    (sequential list (out.last ||| bitptn)).accepted
  pattern : out.pattern = (sequential list (out.x ||| bitptn)).pattern
  below : Below out.pattern (sequential list (out.last ||| bitptn)).pattern

lemma and_not_or_bits (x pattern bitptn : Pattern) (below : Below x pattern) :
    (pattern ||| bitptn) &&& ~~~(pattern &&& ~~~x &&& ~~~bitptn) = x ||| bitptn := by
  refine BitVec.eq_of_getLsbD_eq fun i bound => ?_
  have implied := below i
  simp only [BitVec.getLsbD_and, BitVec.getLsbD_or, BitVec.getLsbD_not, bound, decide_true,
    Bool.true_and]
  cases hx : x.getLsbD i <;> cases hp : pattern.getLsbD i <;> cases hb : bitptn.getLsbD i <;>
    simp_all

lemma written_bits (v x last bitptn lost : Pattern) (below : Below v (last ||| bitptn))
    (same : (last ||| bitptn) &&& ~~~lost = x ||| bitptn) :
    (x ||| bitptn) &&& ~~~((last ||| bitptn) &&& ~~~v) = v &&& ~~~lost := by
  rw [← same]
  refine BitVec.eq_of_getLsbD_eq fun i bound => ?_
  have implied := below i
  simp only [BitVec.getLsbD_and, BitVec.getLsbD_or, BitVec.getLsbD_not, bound, decide_true,
    Bool.true_and] at implied ⊢
  cases hv : v.getLsbD i <;> cases hl : last.getLsbD i <;> cases hb : bitptn.getLsbD i <;>
    cases lost.getLsbD i <;> simp_all

lemma finish_spec {sq : List Waiter} {protocol : Protocol} {x : Pattern} {regs : Regs}
    (distinct : (sq.map Waiter.thread).Nodup) (refused : ∀ w ∈ sq, w.refuses pattern = true) (below : Below x pattern)
    (same : (x ^^^ pattern) &&& ((pass protocol sq bitptn pattern regs).dependantMask &&& ~~~bitptn) = 0) :
    LoopSpec (protocolOrder protocol sq) bitptn regs.gpr3
      (finish bitptn pattern x (pass protocol sq bitptn pattern regs)) := by
  have ordered := protocolOrder_perm protocol sq
  have threads : ((protocolOrder protocol sq).map Waiter.thread).Nodup :=
    (ordered.map Waiter.thread).nodup_iff.mpr distinct
  rw [pass_eq distinct] at same ⊢
  rw [passOver_mask] at same
  have lostBits := and_not_or_bits x pattern bitptn below
  have stable := sequential_stable (pattern &&& ~~~x &&& ~~~bitptn) (protocolOrder protocol sq)
    (Below.refl (pattern ||| bitptn)) (fun w member => refused w (ordered.mem_iff.mp member)) ?_ ?_
  · rw [lostBits] at stable
    have written := written_bits _ x pattern bitptn _
      (sequential_below (protocolOrder protocol sq) (pattern ||| bitptn)) lostBits
    exact {
      count := by simp only [finish, passOver_count, zero_add]
      gpr3 := by simp only [finish, passOver_gpr3 _ _ _ threads, afterRounds]
      accepted := stable.1
      pattern := by
        rw [finish, stable.2, passOver_toWrite]
        exact written
      below := by
        rw [finish, passOver_toWrite, written]
        exact and_below_left _ _ }
  · intro i gone
    rw [BitVec.getLsbD_and, BitVec.getLsbD_not, Bool.and_eq_true, Bool.and_eq_true,
      Bool.not_eq_true'] at gone
    exact gone.2.2
  · intro i needed
    have bit := congrArg (fun v => v.getLsbD i) same
    have bound : i < 64 := BitVec.lt_of_getLsbD needed
    simp only [BitVec.getLsbD_and, BitVec.getLsbD_xor, BitVec.getLsbD_or, BitVec.getLsbD_not, needed,
      bound, decide_true, Bool.true_and, Bool.or_true] at bit ⊢
    cases hx : x.getLsbD i <;> cases hp : pattern.getLsbD i <;> cases hb : bitptn.getLsbD i <;>
      simp_all

lemma setLoop_spec {sq : List Waiter} {protocol : Protocol} {regs : Regs} (distinct : (sq.map Waiter.thread).Nodup)
    (refused : ∀ w ∈ sq, w.refuses pattern = true) (updates : List (List LockFree)) :
    LoopSpec (protocolOrder protocol sq) bitptn regs.gpr3
      (setLoop protocol sq bitptn updates pattern regs) := by
  induction updates generalizing pattern regs with
  | nil => exact finish_spec distinct refused (Below.refl pattern) (by simp)
  | cons now later ih =>
    have below := foldl_below now pattern
    simp only [setLoop]
    split
    next same => exact finish_spec distinct refused below same
    have next : LoopSpec (protocolOrder protocol sq) bitptn _ (setLoop protocol sq bitptn later
        (now.foldl LockFree.apply pattern) (pass protocol sq bitptn pattern regs).regs) :=
      ih fun w member => Waiter.refuses_mono below (refused w member)
    have threads : ((protocolOrder protocol sq).map Waiter.thread).Nodup :=
      ((protocolOrder_perm protocol sq).map Waiter.thread).nodup_iff.mpr distinct
    have verdicts : (pass protocol sq bitptn pattern regs).regs.gpr3 =
        judge (sequential (protocolOrder protocol sq) (pattern ||| bitptn)) regs.gpr3 := by
      rw [pass_eq distinct, passOver_gpr3 _ _ _ threads]
    exact { next with
      gpr3 := by
        rw [next.gpr3, verdicts]
        rfl }

end EmuCore.Lv2.EventFlag
