import EmuCore.Memory.PagesSpec

namespace EmuCore.Memory

open PageFlags List Except Nat

section Runs

variable (old : Pages) (set clear : PageFlags) {first count i : Nat} {p : Protect}

def runStart (old : Pages) (set clear : PageFlags) (first : Nat) : Nat -> Nat
  | 0 => 0
  | i + 1 =>
    if first ≤ i ∧ changed set clear (old i) = changed set clear (old (i + 1)) then
      runStart old set clear first i
    else i + 1

-- The first page of the run has its new value already, and the others are taken to have theirs.
def Stale (old : Pages) (set clear : PageFlags) (first i : Nat) : Prop :=
  changed set clear (old (runStart old set clear first i)) = old (runStart old set clear first i)

instance instDecidableStale : Decidable (Stale old set clear first i) :=
  inferInstanceAs (Decidable (_ = _))

-- The value of the last run is the one that stands for no run, and the run is not written.
def Lost (old : Pages) (set clear : PageFlags) (first last i : Nat) : Prop :=
  runStart old set clear first (last - 1) ≤ i ∧ changed set clear (old (last - 1)) = executable

instance instDecidableLost {last : Nat} : Decidable (Lost old set clear first last i) :=
  inferInstanceAs (Decidable (_ ∧ _))

def settled (old : Pages) (set clear : PageFlags) (first i : Nat) : PageFlags :=
  if Stale old set clear first i then old i else changed set clear (old i)

lemma runStart_bounds (from_ : first ≤ i) :
    first ≤ runStart old set clear first i ∧ runStart old set clear first i ≤ i := by
  induction i with
  | zero => exact ⟨from_, le_rfl⟩
  | succ i ih =>
    rw [runStart]
    split
    next same =>
      have bounds := ih same.1
      omega
    next => exact ⟨from_, le_rfl⟩

lemma runStart_first : runStart old set clear first first = first := by
  have bounds := runStart_bounds old set clear (le_refl first)
  omega

lemma runStart_between {j : Nat} (from_ : first ≤ i) (after : runStart old set clear first i ≤ j)
    (until_ : j ≤ i) : runStart old set clear first j = runStart old set clear first i ∧
      changed set clear (old j) = changed set clear (old i) := by
  induction i with
  | zero =>
    obtain rfl : j = 0 := by omega
    exact ⟨rfl, rfl⟩
  | succ i ih =>
    rcases Nat.lt_succ_iff_lt_or_eq.mp (Nat.lt_succ_of_le until_) with earlier | rfl
    · rw [runStart] at after ⊢
      split at after
      next same =>
        rw [if_pos same]
        obtain ⟨start, value⟩ := ih same.1 after (by omega)
        exact ⟨start, value.trans same.2⟩
      next => omega
    · exact ⟨rfl, rfl⟩

structure Protect.Exact (old : Pages) (set clear : PageFlags) (first i : Nat) (p : Protect) : Prop where
  begun : i = first -> p.start = first ∧ p.startValue = executable
  inRun : first < i -> p.start = runStart old set clear first (i - 1) ∧
    p.startValue = changed set clear (old (i - 1))
  pages : ∀ j, p.pages j = if first ≤ j ∧ j < p.start then settled old set clear first j else old j

namespace Protect

variable {old set clear}

variable (exact_ : p.Exact old set clear first i)

include exact_

lemma Exact.bounds (from_ : first ≤ i) :
    first ≤ p.start ∧ p.start ≤ i ∧ (first < i -> p.start < i) := by
  rcases eq_or_lt_of_le from_ with rfl | later
  · have start := (exact_.begun rfl).1
    omega
  · have bounds := runStart_bounds old set clear (show first ≤ i - 1 by omega)
    have start := (exact_.inRun later).1
    omega

lemma Exact.rest {j : Nat} (after : p.start ≤ j) :
    p.pages j = old j := by
  rw [exact_.pages j, if_neg (by omega)]

lemma Exact.flush (from_ : first ≤ i) (j : Nat) :
    p.flush i j = if first ≤ j ∧ j < i then settled old set clear first j else old j := by
  have bounds := exact_.bounds from_
  by_cases inside : p.start ≤ j ∧ j < i
  · obtain ⟨start, value⟩ := exact_.inRun (by omega)
    obtain ⟨same, new⟩ := runStart_between old set clear (j := j)
      (show first ≤ i - 1 by omega) (by omega) (by omega)
    obtain ⟨_, headNew⟩ := runStart_between old set clear (j := p.start)
      (show first ≤ i - 1 by omega) (by omega) (by omega)
    have stale : Stale old set clear first j ↔ ¬ p.pages p.start ≠ p.startValue := by
      rw [Stale, same, ← start, headNew, exact_.rest le_rfl, value, not_not, eq_comm]
    rw [if_pos (by omega), settled, Protect.flush]
    by_cases done : p.pages p.start ≠ p.startValue
    · rw [if_pos ⟨by omega, done⟩, if_neg (by rw [stale]; exact not_not.mpr done),
        fill_inside inside.1 (by omega), value, new]
    · rw [if_neg (fun both => done both.2), if_pos (stale.mpr done), exact_.rest inside.1]
  · have kept : p.flush i j = p.pages j := by
      rw [Protect.flush]
      split
      next => exact fill_outside (by omega)
      next => rfl
    rw [kept, exact_.pages j]
    by_cases early : first ≤ j ∧ j < p.start
    · rw [if_pos early, if_pos (by omega)]
    · rw [if_neg early, if_neg (by omega)]

lemma Exact.step {last : Nat} (from_ : first ≤ i)
    (before : i < last) : (p.step set clear last i).Exact old set clear first (i + 1) := by
  have bounds := exact_.bounds from_
  have here : p.pages i = old i := exact_.rest bounds.2.1
  simp only [Protect.step, if_pos before, here]
  split
  next same =>
    refine ⟨by omega, fun _ => ⟨?_, same.symm⟩, exact_.pages⟩
    rw [Nat.add_sub_cancel]
    rcases eq_or_lt_of_le from_ with rfl | later
    · rw [(exact_.begun rfl).1, runStart_first]
    obtain ⟨start, value⟩ := exact_.inRun later
    obtain ⟨i, rfl⟩ : ∃ k, i = k + 1 := ⟨i - 1, by omega⟩
    rw [runStart, if_pos ⟨by omega, by rw [same, value]; rfl⟩, start]
    rfl
  next differs =>
    refine ⟨by omega, fun _ => ⟨?_, rfl⟩, exact_.flush from_⟩
    rw [Nat.add_sub_cancel]
    rcases eq_or_lt_of_le from_ with rfl | later
    · exact (runStart_first old set clear).symm
    obtain ⟨_, value⟩ := exact_.inRun later
    obtain ⟨i, rfl⟩ : ∃ k, i = k + 1 := ⟨i - 1, by omega⟩
    rw [runStart, if_neg]
    rintro ⟨_, same⟩
    exact differs (same.symm.trans value.symm)

omit exact_

lemma fold_exact (old : Pages) (set clear : PageFlags) (first : Nat) {rounds : Nat} (few : rounds ≤ count) :
    ((List.range' first rounds).foldl (Protect.step set clear (first + count))
      ⟨old, first, executable⟩).Exact old set clear first (first + rounds) := by
  induction rounds with
  | zero =>
    refine ⟨fun _ => ⟨rfl, rfl⟩, fun later => absurd later (lt_irrefl _), fun j => ?_⟩
    exact (if_neg fun inside => absurd inside.2 (not_lt.mpr inside.1)).symm
  | succ rounds ih =>
    rw [range'_1_concat, foldl_append]
    exact (ih (by omega)).step (by omega) (by omega)

end Protect

lemma protectRange_exact (first count j : Nat) :
    protectRange old set clear first count j =
      if (first ≤ j ∧ j < first + count) ∧ ¬ Lost old set clear first (first + count) j then
        settled old set clear first j
      else old j := by
  have exact_ := Protect.fold_exact old set clear first (le_refl count)
  unfold protectRange
  rw [range'_1_concat, foldl_append]
  generalize (List.range' first count).foldl _ _ = p at exact_
  simp only [foldl_cons, foldl_nil, Protect.step, lt_irrefl, if_false]
  rcases Nat.eq_zero_or_pos count with rfl | filled
  · obtain ⟨start, value⟩ := exact_.begun rfl
    rw [if_pos value.symm, exact_.pages, if_neg (by omega), if_neg (by omega)]
  obtain ⟨start, value⟩ := exact_.inRun (by omega)
  have bounds := exact_.bounds (le_add_right _ _)
  split
  next same =>
    have lost : Lost old set clear first (first + count) j ↔ p.start ≤ j := by
      rw [Lost, ← start, ← value, ← same]
      exact and_iff_left rfl
    rw [exact_.pages]
    exact if_congr (by rw [lost]; omega) rfl rfl
  next differs =>
    have kept : ¬ Lost old set clear first (first + count) j := fun lost =>
      differs (lost.2.symm.trans value.symm)
    refine (exact_.flush (le_add_right _ _) j).trans (if_congr ?_ rfl rfl)
    exact (and_iff_left kept).symm

end Runs

section Outcome

variable {pages next : Pages} {addr size : Nat} {test set clear : PageFlags} {result : Bool}

lemma changed_zero (value : PageFlags) : changed 0 0 value = value := by
  revert value
  decide

end Outcome

def Skipped (old : Pages) (set clear : PageFlags) (first last i : Nat) : Prop :=
  Stale old set clear first i ∨ Lost old set clear first last i

lemma protectRange_iff (old : Pages) (set clear : PageFlags) (first count : Nat) :
    (∀ j, protectRange old set clear first count j =
        if first ≤ j ∧ j < first + count then changed set clear (old j) else old j) ↔
      ∀ j, first ≤ j -> j < first + count -> Skipped old set clear first (first + count) j ->
        changed set clear (old j) = old j := by
  constructor
  · intro all j from_ before skipped
    have here := all j
    rw [protectRange_exact] at here
    refine (here.trans (if_pos ⟨from_, before⟩)).symm.trans ?_
    split
    next kept => rw [settled, if_pos (skipped.resolve_right kept.2)]
    next => rfl
  intro kept j
  rw [protectRange_exact]
  by_cases inside : first ≤ j ∧ j < first + count
  · rw [if_pos inside]
    split
    next written =>
      rw [settled]
      split
      next stale => exact (kept j inside.1 inside.2 (.inl stale)).symm
      next => rfl
    next lost =>
      have lost : Lost old set clear first (first + count) j := by
        by_contra written
        exact lost ⟨inside, written⟩
      exact (kept j inside.1 inside.2 (.inr lost)).symm
  · rw [if_neg inside, if_neg fun both => inside both.1]

def halfWritable : Pages := fun i =>
  if i = 16 then readable ||| allocated else if i = 17 then readable ||| writable ||| allocated else 0

end EmuCore.Memory
