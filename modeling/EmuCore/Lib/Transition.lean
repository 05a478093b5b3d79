import Mathlib.Data.List.Basic

namespace Transition

structure System (S A : Type) where
  init : S -> Prop
  step : S -> A -> Option S

variable {S A : Type}

def System.run (sys : System S A) : S -> List A -> Option S
  | s, [] => some s
  | s, a :: rest => (sys.step s a).bind fun next => sys.run next rest

inductive System.Reachable (sys : System S A) : S -> Prop
  | init {s : S} (start : sys.init s) : sys.Reachable s
  | step {s next : S} {a : A} (before : sys.Reachable s) (move : sys.step s a = some next) :
      sys.Reachable next

variable {sys : System S A}

lemma System.Reachable.invariant {P : S -> Prop} (base : ∀ s, sys.init s -> P s)
    (keep : ∀ s a next, P s -> sys.step s a = some next -> P next) {s : S} (reach : sys.Reachable s) : P s := by
  induction reach with
  | init start => exact base _ start
  | step _ move ih => exact keep _ _ _ ih move

lemma System.Reachable.run {s last : S} (reach : sys.Reachable s) (actions : List A)
    (ran : sys.run s actions = some last) : sys.Reachable last := by
  induction actions generalizing s with
  | nil =>
    obtain rfl : s = last := by simpa [System.run] using ran
    exact reach
  | cons a rest ih =>
    obtain ⟨next, move, ran⟩ := Option.bind_eq_some_iff.mp ran
    exact ih (reach.step move) ran

def System.guarded (sys : System S A) (guard : S -> A -> Prop)
    [∀ s a, Decidable (guard s a)] : System S A where
  init := sys.init
  step := fun s a => if guard s a then sys.step s a else none

section

variable {guard : S -> A -> Prop} [∀ s a, Decidable (guard s a)]

lemma System.guarded_step {s next : S} {a : A}
    (move : (sys.guarded guard).step s a = some next) :
    guard s a ∧ sys.step s a = some next := by
  simp only [System.guarded] at move
  split at move
  next admitted => exact ⟨admitted, move⟩
  next => cases move

lemma System.Reachable.unguarded {s : S}
    (reach : (sys.guarded guard).Reachable s) :
    sys.Reachable s := by
  induction reach with
  | init start => exact .init start
  | step _ move ih => exact ih.step (guarded_step move).2

end

end Transition
