import Mathlib.Tactic

/-- At most one thread is in a phase of the kind `P`, and none while the flag is zero. -/
structure Exclusive {T P : Type} (holds : P -> Prop) (phase : T -> P) (flag : Nat) : Prop where
  free : flag = 0 -> ∀ t, ¬holds (phase t)
  one : ∀ {t u}, holds (phase t) -> holds (phase u) -> t = u

namespace Exclusive

open Function

variable {T P : Type} [DecidableEq T] {holds : P -> Prop} {phase : T -> P} {flag next : Nat} {t : T}
  {p : P}

variable (exclusive : Exclusive holds phase flag)

include exclusive

lemma acquire (free : flag = 0) (taken : next ≠ 0) :
    Exclusive holds (update phase t p) next where
  free := fun zero => absurd zero taken
  one := fun {u v} first second => by
    have only : ∀ {u}, holds (update phase t p u) -> u = t := fun {u} held => by
      by_contra other
      rw [update_of_ne other] at held
      exact exclusive.free free u held
    rw [only first, only second]

lemma release (held : holds (phase t)) (after : ¬holds p)
    (next : Nat) : Exclusive holds (update phase t p) next := by
  have none : ∀ u, ¬holds (update phase t p u) := fun u => by
    by_cases same : u = t
    · rw [same, update_self]
      exact after
    · rw [update_of_ne same]
      exact fun other => same (exclusive.one other held)
  exact ⟨fun _ => none, fun first _ => absurd first (none _)⟩

lemma keep (same : holds p -> holds (phase t)) :
    Exclusive holds (update phase t p) flag := by
  have before : ∀ {u}, holds (update phase t p u) -> holds (phase u) := fun {u} held => by
    by_cases here : u = t
    · subst here
      rw [update_self] at held
      exact same held
    · rwa [update_of_ne here] at held
  exact ⟨fun zero u held => exclusive.free zero u (before held),
    fun first second => exclusive.one (before first) (before second)⟩

end Exclusive
