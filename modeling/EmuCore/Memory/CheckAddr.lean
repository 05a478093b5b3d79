import EmuCore.Memory.PagesSpec

namespace EmuCore.Memory

open PageFlags BitVec

def Has (value flags : PageFlags) : Prop := value &&& flags = flags

variable (pages : Pages)

/-- What check_addr should answer: every page of the range has the flags and is allocated. -/
def CheckExact : Prop :=
  ∀ addr flags size, checkAddr pages addr flags size = true ↔
    ∀ x, addr ≤ x -> x < addr + size -> Has (pages (x / 4096)) (flags ||| allocated)

def Forward : Prop :=
  ∀ i j, i ≤ j -> j < nextPage (pages i) i -> pages i &&& allocated ≠ 0 -> Has (pages j) (pages i)

def Bounded : Prop := ∀ i, 2 ^ 20 ≤ i -> pages i &&& allocated = 0

def granule (value : PageFlags) : Nat :=
  if value &&& size1m ≠ 0 then 256 else if value &&& size64k ≠ 0 then 16 else 1

lemma granule_cases (value : PageFlags) :
    granule value = 256 ∨ granule value = 16 ∨ granule value = 1 := by
  unfold granule
  split_ifs <;> simp

lemma nextPage_eq {i : Nat} (small : i < 2 ^ 32) (value : PageFlags) :
    nextPage value i = (i / granule value + 1) * granule value := by
  unfold nextPage granule
  split
  next =>
    rw [show (0x100000 / 4096 : Nat) = 2 ^ 8 from rfl, Align.up_two_pow (by omega) (by decide)]
    omega
  next =>
    split
    next =>
      rw [show (0x10000 / 4096 : Nat) = 2 ^ 4 from rfl, Align.up_two_pow (by omega) (by decide)]
      omega
    next => omega

lemma lt_nextPage {i : Nat} (small : i < 2 ^ 32) (value : PageFlags) : i < nextPage value i := by
  rw [nextPage_eq small]
  rcases granule_cases value with size | size | size <;> rw [size] <;> omega

lemma has_iff (value flags : PageFlags) : ~~~value &&& flags = 0 ↔ Has value flags := by
  constructor
  · intro none
    apply eq_of_getLsbD_eq
    intro i inside
    have bit := congrArg (fun v => v.getLsbD i) none
    simp only [getLsbD_and, getLsbD_not, inside, decide_true, Bool.true_and]
      at bit
    rw [getLsbD_and]
    generalize value.getLsbD i = x at bit ⊢
    generalize flags.getLsbD i = y at bit ⊢
    cases x <;> cases y <;> simp_all
  · intro has
    rw [← has, ← BitVec.and_assoc]
    simp

lemma Has.trans {value middle flags : PageFlags} (first : Has value middle)
    (second : Has middle flags) : Has value flags := by
  unfold Has at *
  rw [← second, ← BitVec.and_assoc, first]

lemma has_allocated (value : PageFlags) : value &&& allocated ≠ 0 ↔ Has value allocated := by
  revert value
  unfold Has
  decide

lemma has_or_right (flags : PageFlags) : Has (flags ||| allocated) allocated := by
  revert flags
  unfold Has
  decide

lemma or_allocated (value : PageFlags) : value &&& allocated ≠ 0 -> value ||| allocated = value := by
  revert value
  decide

section Loop

variable {pages : Pages} {flags : PageFlags} {max : Nat}

lemma checkLoop_past {fuel i : Nat} (past : max < i) : checkLoop pages flags max fuel i = true := by
  cases fuel with
  | zero => rfl
  | succ fuel => rw [checkLoop, if_neg (by omega)]

lemma checkLoop_iff (forward : Forward pages) (marked : Has flags allocated) (small : max < 2 ^ 32)
    {fuel i : Nat} (enough : max + 1 - i ≤ fuel) :
    checkLoop pages flags max fuel i = true ↔ ∀ j, i ≤ j -> j ≤ max -> Has (pages j) flags := by
  induction fuel generalizing i with
  | zero =>
    rw [checkLoop_past (by omega)]
    exact ⟨fun _ j from_ before => by omega, fun _ => rfl⟩
  | succ fuel ih =>
    by_cases inside : i ≤ max
    · rw [checkLoop, if_pos inside]
      have later := lt_nextPage (show i < 2 ^ 32 by omega) (pages i)
      by_cases has : Has (pages i) flags
      · rw [if_neg (by simpa using (has_iff _ _).mpr has), ih (by omega)]
        refine ⟨fun rest j from_ before => ?_, fun all j from_ => all j (by omega)⟩
        rcases lt_or_ge j (nextPage (pages i) i) with skipped | seen
        · exact (forward i j from_ skipped ((has_allocated _).mpr (has.trans marked))).trans has
        · exact rest j seen before
      · rw [if_pos (by simpa using (has_iff _ _).not.mpr has)]
        exact ⟨nofun, fun all => absurd (all i le_rfl inside) has⟩
    · rw [checkLoop_past (by omega)]
      exact ⟨fun _ j from_ before => by omega, fun _ => rfl⟩

end Loop

section Exact

variable {pages : Pages}

lemma Forward.exact (forward : Forward pages) (bounded : Bounded pages) : CheckExact pages := by
  intro addr flags size
  unfold checkAddr
  split
  next none => exact ⟨fun _ x from_ before => by omega, fun _ => rfl⟩
  next some =>
    split
    next outside =>
      refine ⟨nofun, fun all => ?_⟩
      have has := all (addr + size - 1) (by omega) (by omega)
      exact absurd (bounded _ (by omega)) ((has_allocated _).mpr (has.trans (has_or_right flags)))
    next inside =>
      rw [checkLoop_iff forward (has_or_right flags) (by omega) (by omega)]
      constructor
      · intro all x from_ before
        exact all (x / 4096) (by omega) (by omega)
      · intro all j from_ before
        have has := all (max addr (j * 4096)) (by omega) (by omega)
        rwa [show max addr (j * 4096) / 4096 = j by omega] at has

lemma CheckExact.forward (exact_ : CheckExact pages) (bounded : Bounded pages) : Forward pages := by
  intro i j from_ before used
  have inside : i < 2 ^ 20 := by
    by_contra outside
    exact used (bounded i (by omega))
  have last : j < 2 ^ 20 := by
    rw [nextPage_eq (by omega)] at before
    rcases granule_cases (pages i) with size | size | size <;> rw [size] at before <;> omega
  have checked : checkAddr pages (i * 4096) (pages i) ((j + 1 - i) * 4096) = true := by
    have whole : (i * 4096 + (j + 1 - i) * 4096 - 1) / 4096 = j := by omega
    have own : ~~~pages i &&& (pages i ||| allocated) = 0 := by
      rw [or_allocated _ used, has_iff]
      exact BitVec.and_self
    rw [checkAddr, if_neg (by omega), if_neg (by omega), whole, Nat.mul_div_cancel _ (by decide),
      show j + 1 - i = (j - i) + 1 by omega, checkLoop, if_pos from_, own, if_neg (by simp)]
    exact checkLoop_past before
  have has := (exact_ _ _ _).mp checked (j * 4096) (by omega) (by omega)
  rwa [Nat.mul_div_cancel _ (by decide), or_allocated _ used] at has

lemma checkExact_iff (bounded : Bounded pages) : CheckExact pages ↔ Forward pages :=
  ⟨fun exact_ => exact_.forward bounded, fun forward => forward.exact bounded⟩

end Exact

end EmuCore.Memory
