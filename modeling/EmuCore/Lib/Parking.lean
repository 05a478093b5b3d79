import Mathlib.Tactic

namespace Parking

open List Function

variable {T : Type} {waits : T -> Prop} {queue hand woken : List T}

/-- Every waiting thread is queued, in the hands of the thread that picked it, or woken; and it is
in one of these places only. -/
structure Tracks (waits : T -> Prop) (queue hand woken : List T) : Prop where
  nodup : (queue ++ hand ++ woken).Nodup
  mem : ∀ t, t ∈ queue ++ hand ++ woken ↔ waits t

variable {t : T}

variable (tracks : Tracks waits queue hand woken)

include tracks

lemma Tracks.waits_hand (held : t ∈ hand) :
    waits t := (tracks.mem t).mp (by simp [held])

lemma Tracks.ready (empty : hand = []) (waiting : waits t) (outside : t ∉ queue) : t ∈ woken := by
  have somewhere := (tracks.mem t).mpr waiting
  simpa [empty, outside] using somewhere

lemma Tracks.queue_nodup : queue.Nodup := by
  have all := tracks.nodup
  rw [append_assoc] at all
  exact (nodup_append.mp all).1

lemma Tracks.move {queue' hand' woken' : List T}
    (same : (queue ++ hand ++ woken).Perm (queue' ++ hand' ++ woken')) :
    Tracks waits queue' hand' woken' where
  nodup := same.nodup_iff.mp tracks.nodup
  mem := fun t => same.mem_iff.symm.trans (tracks.mem t)

omit tracks

variable {waits' : T -> Prop}

lemma Tracks.congr (tracks : Tracks waits queue hand woken) (same : ∀ t, waits' t ↔ waits t) :
    Tracks waits' queue hand woken where
  nodup := tracks.nodup
  mem := fun t => (tracks.mem t).trans (same t).symm

lemma Tracks.park (tracks : Tracks waits queue hand woken) (fresh : ¬ waits t)
    (grown : ∀ u, waits' u ↔ u = t ∨ waits u) :
    Tracks waits' (t :: queue) hand woken where
  nodup := by
    simp only [cons_append, nodup_cons]
    exact ⟨fun member => fresh ((tracks.mem t).mp member), tracks.nodup⟩
  mem := by
    intro u
    simp only [cons_append, mem_cons, tracks.mem, grown]

variable [DecidableEq T]

lemma Tracks.leave_queue (tracks : Tracks waits queue hand woken) (queued : t ∈ queue)
    (shrunk : ∀ u, waits' u ↔ u ≠ t ∧ waits u) :
    Tracks waits' (queue.erase t) hand woken := by
  have erased : (queue ++ hand ++ woken).erase t = queue.erase t ++ hand ++ woken := by
    simp only [append_assoc, erase_append_left _ queued]
  constructor
  · rw [← erased]
    exact tracks.nodup.erase t
  · intro u
    rw [← erased, tracks.nodup.mem_erase_iff, tracks.mem, shrunk]

lemma Tracks.leave_woken (tracks : Tracks waits queue hand woken) (ready : t ∈ woken)
    (shrunk : ∀ u, waits' u ↔ u ≠ t ∧ waits u) :
    Tracks waits' queue hand (woken.erase t) := by
  have outside : t ∉ queue ++ hand := fun member =>
    disjoint_of_nodup_append tracks.nodup member ready
  have erased : (queue ++ hand ++ woken).erase t = queue ++ hand ++ woken.erase t :=
    erase_append_right _ outside
  constructor
  · rw [← erased]
    exact tracks.nodup.erase t
  · intro u
    rw [← erased, tracks.nodup.mem_erase_iff, tracks.mem, shrunk]

section

variable {P : Type} {pc : T -> P} {place : P} (waiting : P -> Bool)

include waiting

lemma update_same (same : waiting place = waiting (pc t))
    (u : T) :
    waiting (update pc t place u) = true ↔ waiting (pc u) = true := by
  by_cases here : u = t
  · subst here
    simp [same]
  · simp [here]

lemma update_park (parks : waiting place = true) (u : T) :
    waiting (update pc t place u) = true ↔ u = t ∨ waiting (pc u) = true := by
  by_cases here : u = t
  · subst here
    simp [parks]
  · simp [here]

lemma update_leave (leaves : waiting place = false) (u : T) :
    waiting (update pc t place u) = true ↔ u ≠ t ∧ waiting (pc u) = true := by
  by_cases here : u = t
  · subst here
    simp [leaves]
  · simp [here]

end

end Parking
