import Mathlib.Tactic

namespace Fifo

open List

variable {V : Type}

inductive Event (V : Type)
  | push (value : V)
  | pop (value : V)
  | peek (value : V)
  | clear
deriving DecidableEq

inductive Step (depth : Nat) : List V -> Event V -> List V -> Prop
  | push {items : List V} {value : V} (room : items.length < depth) :
      Step depth items (.push value) (items ++ [value])
  | pop {items : List V} {value : V} : Step depth (value :: items) (.pop value) items
  | peek {items : List V} {value : V} : Step depth (value :: items) (.peek value) (value :: items)
  | clear {items : List V} : Step depth items .clear []

inductive Run (depth : Nat) : List (Event V) -> List V -> Prop
  | init : Run depth [] []
  | step {events : List (Event V)} {items next : List V} {event : Event V}
      (before : Run depth events items) (move : Step depth items event next) :
      Run depth (events ++ [event]) next

def pushes (events : List (Event V)) : List V :=
  events.filterMap fun event => match event with
    | .push value => some value
    | _ => none

def pops (events : List (Event V)) : List V :=
  events.filterMap fun event => match event with
    | .pop value => some value
    | _ => none

structure Ledger (events : List (Event V)) (items : List V) (done : List (V × Bool)) : Prop where
  pushed : pushes events = done.map Prod.fst ++ items
  popped : pops events = (done.filter Prod.snd).map Prod.fst
  discarded : .clear ∉ events -> ∀ entry ∈ done, entry.2 = true

variable {depth : Nat} {events : List (Event V)} {items : List V}

lemma Step.ledger {next : List V} {event : Event V} {done : List (V × Bool)} (ledger : Ledger events items done)
    (move : Step depth items event next) :
    ∃ done, Ledger (events ++ [event]) next done := by
  have kept : .clear ∉ events ++ [event] -> ∀ entry ∈ done, entry.2 = true := fun none =>
    ledger.discarded fun member => none (mem_append_left _ member)
  obtain ⟨pushed, popped, _⟩ := ledger
  cases move with
  | push room | peek => exact ⟨done, by simp_all [pushes], by simp_all [pops], kept⟩
  | @pop _ value =>
    refine ⟨done ++ [(value, true)], by simp_all [pushes], by simp_all [pops], fun none entry member => ?_⟩
    rcases mem_append.mp member with old | new
    · exact kept none entry old
    · rw [mem_singleton.mp new]
  | clear =>
    refine ⟨done ++ items.map fun value => (value, false), ?_, ?_, fun none => by simp at none⟩
    · simp_all [pushes, Function.comp_def]
    · simp_all [pops, filter_map, Function.comp_def]

lemma Run.ledger (run : Run depth events items) : ∃ done, Ledger events items done := by
  induction run with
  | init => exact ⟨[], rfl, rfl, fun _ _ member => by cases member⟩
  | step _ move ih =>
    obtain ⟨done, ledger⟩ := ih
    exact move.ledger ledger

lemma Run.bounded (run : Run depth events items) : items.length ≤ depth := by
  induction run with
  | init => simp
  | step _ move ih =>
    cases move with
    | push room =>
      rw [length_append]
      exact room
    | pop =>
      rw [length_cons] at ih
      omega
    | peek => exact ih
    | clear => simp

end Fifo
