import Mathlib.Data.List.Basic
import Mathlib.Data.List.Induction

/- Pending updates over a memory, the oldest first. The latest one that covers a place decides. -/

namespace Overlay

open List

variable {X V B : Type} (covers : B -> X -> Bool) (value : B -> V)

def latest (queue : List B) (x : X) : Option B := queue.reverse.find? (covers · x)

def update (memory : X -> V) (block : B) : X -> V := fun x => if covers block x then value block else memory x

variable {covers value} {x : X}

@[simp] lemma latest_nil : latest covers [] x = none := rfl

lemma latest_append (older newer : List B) :
    latest covers (older ++ newer) x = (latest covers newer x).or (latest covers older x) := by
  rw [latest, reverse_append, find?_append]
  rfl

lemma latest_singleton (block : B) : latest covers [block] x = if covers block x then some block else none := by
  rw [latest, reverse_singleton, find?_singleton]

variable {queue : List B}

lemma latest_covers {block : B} (found : latest covers queue x = some block) :
    covers block x = true := find?_some (p := (covers · x)) found

lemma latest_mem {block : B} (found : latest covers queue x = some block) : block ∈ queue :=
  mem_reverse.mp (mem_of_find?_eq_some found)

lemma latest_eq_none (free : ∀ block ∈ queue, covers block x = false) :
    latest covers queue x = none :=
  find?_eq_none.mpr fun block member covered =>
    Bool.eq_false_iff.mp (free block (mem_reverse.mp member)) covered

lemma foldl_update (queue : List B) (memory : X -> V) :
    queue.foldl (update covers value) memory x = ((latest covers queue x).map value).getD (memory x) := by
  induction queue using List.reverseRecOn with
  | nil => rfl
  | append_singleton older block ih =>
    rw [foldl_append, foldl_cons, foldl_nil, latest_append, latest_singleton, update]
    split
    next => rfl
    next => rw [ih, Option.none_or]

end Overlay
