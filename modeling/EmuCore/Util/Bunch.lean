import EmuCore.Lib.Transition
import Mathlib.Tactic

namespace EmuCore.Util.Bunch

open Function List

-- Items are known by their number in the order in which they become visible, and 0 is the null pointer: the link
-- of an item leads to the one before it, and items stay until the bunch is destroyed.
inductive Pusher (T : Type)
  | idle
  | checking (value : T) (old chk ptr : Nat)
  | exchanging (value : T) (old : Nat)
  | returned (added : Bool)

structure State (P T : Type) where
  items : List T
  pushers : P -> Pusher T
  checks : List (T × T)

inductive Action (P T : Type)
  | call (pusher : P) (value : T)
  | run (pusher : P)

variable {P T : Type} [DecidableEq P] (pred : T -> T -> Bool)

def State.set (s : State P T) (i : P) (pusher : Pusher T) : State P T :=
  { s with pushers := update s.pushers i pusher }

def State.check (s : State P T) (i : P) (value : T) (old chk ptr : Nat) (existing : T) : State P T :=
  if pred value existing then
    { s.set i (.checking value old chk (ptr - 1)) with checks := (value, existing) :: s.checks }
  else s.set i (.returned false)

def step (s : State P T) : Action P T -> Option (State P T)
  | .call i value =>
    match s.pushers i with
    | .idle | .returned _ => some (s.set i (.checking value s.items.length 0 s.items.length))
    | _ => none
  | .run i =>
    match s.pushers i with
    | .checking value old chk ptr =>
      if ptr = chk then some (s.set i (.exchanging value old))
      else s.items[ptr - 1]?.map (s.check pred i value old chk ptr)
    | .exchanging value old =>
      if s.items.length = old then some { s.set i (.returned true) with items := s.items ++ [value] }
      -- what was visible before has been checked
      else some (s.set i (.checking value s.items.length old s.items.length))
    | _ => none

def system (P T : Type) [DecidableEq P] (pred : T -> T -> Bool) : Transition.System (State P T) (Action P T) where
  init := fun s => s = ⟨[], fun _ => .idle, []⟩
  step := step pred

def Checked (s : State P T) (value existing : T) : Prop :=
  pred value existing = true ∧ (value, existing) ∈ s.checks

def Pusher.Sound (s : State P T) : Pusher T -> Prop
  | .checking value old chk ptr => chk ≤ ptr ∧ ptr ≤ old ∧ old ≤ s.items.length ∧
      ∀ k e, s.items[k]? = some e -> k < chk ∨ ptr ≤ k ∧ k < old -> Checked pred s value e
  | .exchanging value old => old ≤ s.items.length ∧
      ∀ k e, s.items[k]? = some e -> k < old -> Checked pred s value e
  | _ => True

structure Inv (s : State P T) : Prop where
  sound : ∀ i, (s.pushers i).Sound pred s
  apart : s.items.Pairwise fun existing value => Checked pred s value existing

variable {pred} {s next : State P T}

omit [DecidableEq P] in
lemma Pusher.Sound.mono {pusher : Pusher T} (sound : pusher.Sound pred s) {added : List T}
    (items : next.items = s.items ++ added) (checks : s.checks ⊆ next.checks) : pusher.Sound pred next := by
  have old {k n : Nat} {e : T} (at_ : next.items[k]? = some e) (low : k < n) (visible : n ≤ s.items.length) :
      s.items[k]? = some e := by
    rwa [items, getElem?_append_left (by omega)] at at_
  have length : s.items.length ≤ next.items.length := by simp [items]
  cases pusher with
  | checking value old_ chk ptr =>
    obtain ⟨first, second, third, checked⟩ := sound
    refine ⟨first, second, third.trans length, fun k e at_ which => ?_⟩
    exact (checked k e (old at_ (by omega) third) which).imp_right (checks ·)
  | exchanging value old_ =>
    obtain ⟨third, checked⟩ := sound
    exact ⟨third.trans length, fun k e at_ low => (checked k e (old at_ low third) low).imp_right (checks ·)⟩
  | idle | returned => trivial

lemma Inv.move (inv : Inv pred s) {i : P} {pusher : Pusher T} {added : List T}
    (pushers : next.pushers = update s.pushers i pusher) (items : next.items = s.items ++ added)
    (checks : s.checks ⊆ next.checks) (sound : pusher.Sound pred next)
    (apart : next.items.Pairwise fun existing value => Checked pred next value existing) : Inv pred next := by
  refine ⟨fun j => ?_, apart⟩
  rw [pushers]
  by_cases mine : j = i
  · rwa [mine, update_self]
  · rw [update_of_ne mine]
    exact (inv.sound j).mono items checks

-- A step leaves the items as they are, or it adds one that was checked against all of them.
def Adds (pred : T -> T -> Bool) (s next : State P T) (i : P) : Prop :=
  next.items = s.items ∧ next.pushers i ≠ .returned true ∨
  ∃ value, next.items = s.items ++ [value] ∧ next.pushers i = .returned true ∧
    ∀ existing ∈ s.items, Checked pred s value existing

def Action.pusher : Action P T -> P
  | .call i _ => i
  | .run i => i

lemma Inv.set (inv : Inv pred s) {i : P} {pusher : Pusher T} (sound : pusher.Sound pred s)
    (other : pusher ≠ .returned true) : Inv pred (s.set i pusher) ∧ Adds pred s (s.set i pusher) i :=
  ⟨inv.move rfl (append_nil _).symm (Subset.refl _) (sound.mono (append_nil _).symm (Subset.refl _)) inv.apart,
    .inl ⟨rfl, (update_self _ _ _).trans_ne other⟩⟩

lemma Inv.step (inv : Inv pred s) {action : Action P T} (move : step pred s action = some next) :
    Inv pred next ∧ Adds pred s next action.pusher := by
  cases action with
  | call i value =>
    rw [Bunch.step] at move
    split at move
    case h_3 => cases move
    all_goals
      cases move
      exact inv.set ⟨Nat.zero_le _, le_rfl, le_rfl, fun k e at_ which => absurd which (by omega)⟩ (by simp)
  | run i =>
    rw [Bunch.step] at move
    have sound := inv.sound i
    cases here : s.pushers i with
    | idle | returned => simp [here] at move
    | checking value old chk ptr =>
      rw [here] at move sound
      obtain ⟨first, second, third, checked⟩ := sound
      dsimp only at move
      split at move
      next last =>
        cases move
        exact inv.set ⟨third, fun k e at_ low => checked k e at_ (by omega)⟩ (by simp)
      obtain ⟨existing, at_, rfl⟩ := Option.map_eq_some_iff.mp move
      rw [State.check]
      split
      next holds =>
        refine ⟨inv.move rfl (append_nil _).symm (subset_cons_self _ _)
          ⟨by omega, by omega, third, fun k e found which => ?_⟩
          (inv.apart.imp fun both => both.imp_right (mem_cons_of_mem _)), .inl ⟨rfl, (update_self _ _ _).trans_ne (by simp)⟩⟩
        by_cases same : k = ptr - 1
        · subst same
          cases at_.symm.trans found
          exact ⟨holds, mem_cons_self⟩
        · exact (checked k e found (by omega)).imp_right (mem_cons_of_mem _)
      next => exact inv.set trivial (by simp)
    | exchanging value old =>
      rw [here] at move sound
      obtain ⟨third, checked⟩ := sound
      dsimp only at move
      split at move
      next same =>
        cases move
        have all : ∀ existing ∈ s.items, Checked pred s value existing := fun existing member => by
          obtain ⟨k, at_⟩ := mem_iff_getElem?.mp member
          exact checked k existing at_ (same ▸ (List.getElem?_eq_some_iff.mp at_).1)
        refine ⟨inv.move rfl rfl (Subset.refl _) trivial ?_, .inr ⟨value, rfl, update_self _ _ _, all⟩⟩
        exact pairwise_append.mpr ⟨inv.apart, pairwise_singleton _ _, fun existing member new isValue =>
          mem_singleton.mp isValue ▸ all existing member⟩
      next =>
        cases move
        exact inv.set ⟨third, le_rfl, le_rfl, fun k e at_ which => checked k e at_ (by omega)⟩ (by simp)

theorem push_if_checks {s : State P T} (reach : (system P T pred).Reachable s) :
    (s.items.Pairwise fun existing value => Checked pred s value existing) ∧
    ∀ action next, step pred s action = some next -> Adds pred s next action.pusher := by
  have inv : Inv pred s := by
    refine reach.invariant (P := Inv pred) (fun s start => ?_) fun s action next inv move => (inv.step move).1
    cases start
    exact ⟨fun _ => trivial, .nil⟩
  exact ⟨inv.apart, fun action next move => (inv.step move).2⟩

theorem push_if_checks_two : ∃ s : State Unit Nat, s.items = [1, 2] ∧
    s.items.Pairwise fun existing value => Checked (fun a b => a != b) s value existing := by
  have start : (system Unit Nat fun a b => a != b).Reachable ⟨[], fun _ => .idle, []⟩ := .init rfl
  exact ⟨_, rfl, (push_if_checks (start.run [.call () 1, .run (), .run (), .call () 2, .run (), .run (), .run ()] rfl)).1⟩

end EmuCore.Util.Bunch
