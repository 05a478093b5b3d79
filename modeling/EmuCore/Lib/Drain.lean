import Mathlib.Data.List.Basic

/- A queue that is emptied as a whole: its elements leave in one batch, oldest first or newest first. -/

namespace Drain

open List

variable {T : Type}

inductive Event (T : Type)
  | pushed (value : T) (wasEmpty : Bool)
  | taken (newestFirst : Bool)
  | delivered (newestFirst : Bool) (elements : List T)

structure Queue (T : Type) where
  waiting : List T
  batch : Option (Bool × List T)

def order (newestFirst : Bool) (elements : List T) : List T := if newestFirst then elements.reverse else elements

inductive Step : Queue T -> Event T -> Queue T -> Prop
  | push (waiting : List T) (batch : Option (Bool × List T)) (value : T) :
      Step ⟨waiting, batch⟩ (.pushed value waiting.isEmpty) ⟨waiting ++ [value], batch⟩
  | take (waiting : List T) (newestFirst : Bool) :
      Step ⟨waiting, none⟩ (.taken newestFirst) ⟨[], some (newestFirst, waiting)⟩
  | deliver (waiting elements : List T) (newestFirst : Bool) :
      Step ⟨waiting, some (newestFirst, elements)⟩ (.delivered newestFirst (order newestFirst elements)) ⟨waiting, none⟩

inductive Run : List (Event T) -> Queue T -> Prop
  | nil : Run [] ⟨[], none⟩
  | snoc {events : List (Event T)} {queue next : Queue T} {event : Event T} (before : Run events queue)
      (step : Step queue event next) : Run (events ++ [event]) next

def Event.pushes : Event T -> List T
  | .pushed value _ => [value]
  | _ => []

def Event.deliveries : Event T -> List T
  | .delivered newestFirst elements => order newestFirst elements
  | _ => []

def Queue.pending (queue : Queue T) : List T := queue.batch.elim [] (·.2) ++ queue.waiting

lemma order_order (newestFirst : Bool) (elements : List T) :
    order newestFirst (order newestFirst elements) = elements := by
  cases newestFirst
  · rfl
  · exact reverse_reverse elements

lemma Step.balance {queue next : Queue T} {event : Event T} (step : Step queue event next) :
    event.deliveries ++ next.pending = queue.pending ++ event.pushes := by
  cases step with
  | push waiting batch value | take waiting newestFirst => simp [Event.deliveries, Event.pushes, Queue.pending]
  | deliver waiting elements newestFirst =>
    simp [Event.deliveries, Event.pushes, Queue.pending, order_order]

-- Every pushed element is delivered once or still pending, in the order of the pushes.
lemma Run.balance {events : List (Event T)} {queue : Queue T} (run : Run events queue) :
    events.flatMap Event.deliveries ++ queue.pending = events.flatMap Event.pushes := by
  induction run with
  | nil => rfl
  | snoc before step ih =>
    rw [flatMap_append, flatMap_append, ← ih, flatMap_singleton, flatMap_singleton,
      append_assoc, append_assoc, step.balance]

end Drain
