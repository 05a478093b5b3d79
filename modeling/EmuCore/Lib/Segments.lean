import Mathlib.Tactic

namespace Segments

variable {A : Type} {find find' : Nat -> Option (List A)} {pos stop : Nat}

/-- Pieces of a stream, found by their positions, that follow each other without a gap. -/
inductive Contiguous (find : Nat -> Option (List A)) : Nat -> Nat -> Prop
  | done (pos : Nat) : Contiguous find pos pos
  | next {pos stop : Nat} {data : List A} (found : find pos = some data)
      (rest : Contiguous find (pos + data.length) stop) : Contiguous find pos stop

variable (chain : Contiguous find pos stop)

include chain

lemma Contiguous.le : pos ≤ stop := by
  induction chain with
  | done => exact le_rfl
  | next _ _ ih => omega

lemma Contiguous.first (more : pos < stop) :
    ∃ data, find pos = some data ∧ Contiguous find (pos + data.length) stop := by
  cases chain with
  | done => exact absurd more (lt_irrefl _)
  | next found rest => exact ⟨_, found, rest⟩

lemma Contiguous.mono
    (kept : ∀ j data, pos ≤ j -> find j = some data -> find' j = some data) :
    Contiguous find' pos stop := by
  induction chain with
  | done => exact .done _
  | @next pos _ data found _ ih =>
    exact .next (kept pos data le_rfl found) (ih fun j data after => kept j data (by omega))

lemma Contiguous.until {last : Nat}
    (whole : Contiguous find pos last) (ends : find last = none) : Contiguous find stop last := by
  induction chain with
  | done => exact whole
  | next found _ ih =>
    cases whole with
    | done => rw [ends] at found; cases found
    | next found' rest =>
      obtain rfl := Option.some.inj (found.symm.trans found')
      exact ih rest

lemma Contiguous.covers {i : Nat} (from_ : pos ≤ i)
    (before : i < stop) :
    ∃ k data, find k = some data ∧ pos ≤ k ∧ k ≤ i ∧ i < k + data.length := by
  induction chain with
  | done => omega
  | @next pos _ data found _ ih =>
    by_cases here : i < pos + data.length
    · exact ⟨pos, data, found, le_rfl, from_, here⟩
    · obtain ⟨k, later, found, after, covers⟩ := ih (by omega) before
      exact ⟨k, later, found, by omega, covers⟩

lemma Contiguous.ends :
    stop = pos ∨ ∃ k data, find k = some data ∧ stop = k + data.length := by
  induction chain with
  | done => exact .inl rfl
  | @next pos _ data found _ ih =>
    rcases ih with here | later
    · exact .inr ⟨pos, data, found, here⟩
    · exact .inr later

end Segments
