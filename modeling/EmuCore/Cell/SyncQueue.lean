import EmuCore.Lib.BitField
import EmuCore.Lib.Fifo
import EmuCore.Lib.Transition

namespace EmuCore.Cell.SyncQueue

open Fifo (Event)

structure Ctrl where
  x0 : BitVec 32
  x4 : BitVec 32
deriving DecidableEq

namespace Ctrl

variable (c : Ctrl)

def next : Nat := BitField.extract c.x0 0 24
def pop : Nat := BitField.extract c.x0 24 8
def count : Nat := BitField.extract c.x4 0 24
def push : Nat := BitField.extract c.x4 24 8

def setNext (value : Nat) : Ctrl := { c with x0 := BitField.insert c.x0 0 24 value }
def setPop (value : Nat) : Ctrl := { c with x0 := BitField.insert c.x0 24 8 value }
def setCount (value : Nat) : Ctrl := { c with x4 := BitField.insert c.x4 0 24 value }
def setPush (value : Nat) : Ctrl := { c with x4 := BitField.insert c.x4 24 8 value }

variable (c : Ctrl) (value : Nat)

@[simp] lemma next_setNext : (c.setNext value).next = value % 2 ^ 24 :=
  BitField.extract_insert (by decide) value

@[simp] lemma next_setPop : (c.setPop value).next = c.next :=
  BitField.extract_insert_of_disjoint (by decide) (by decide) value

@[simp] lemma next_setCount : (c.setCount value).next = c.next := rfl

@[simp] lemma next_setPush : (c.setPush value).next = c.next := rfl

@[simp] lemma pop_setNext : (c.setNext value).pop = c.pop :=
  BitField.extract_insert_of_disjoint (by decide) (by decide) value

@[simp] lemma pop_setPop : (c.setPop value).pop = value % 2 ^ 8 :=
  BitField.extract_insert (by decide) value

@[simp] lemma pop_setCount : (c.setCount value).pop = c.pop := rfl

@[simp] lemma pop_setPush : (c.setPush value).pop = c.pop := rfl

@[simp] lemma count_setNext : (c.setNext value).count = c.count := rfl

@[simp] lemma count_setPop : (c.setPop value).count = c.count := rfl

@[simp] lemma count_setCount : (c.setCount value).count = value % 2 ^ 24 :=
  BitField.extract_insert (by decide) value

@[simp] lemma count_setPush : (c.setPush value).count = c.count :=
  BitField.extract_insert_of_disjoint (by decide) (by decide) value

@[simp] lemma push_setNext : (c.setNext value).push = c.push := rfl

@[simp] lemma push_setPop : (c.setPop value).push = c.push := rfl

@[simp] lemma push_setCount : (c.setCount value).push = c.push :=
  BitField.extract_insert_of_disjoint (by decide) (by decide) value

@[simp] lemma push_setPush : (c.setPush value).push = value % 2 ^ 8 :=
  BitField.extract_insert (by decide) value

end Ctrl

variable (c : Ctrl)

-- No depth when the pointers are invalid.
def checkDepth (depth : Nat) : Option Nat :=
  if c.next > depth ∨ c.count > depth then none else some depth

def tryPushBegin (depth : Nat) : Option (Ctrl × Nat) :=
  let count := c.count
  if c.push ≠ 0 ∨ count + c.pop ≥ depth then none
  else
    let position := c.next
    some (((c.setNext (if position + 1 ≠ depth then position + 1 else 0)).setCount (count + 1)).setPush 1,
      position)

def pushEnd : Ctrl := c.setPush 0

def tryPopBegin (depth : Nat) : Option (Ctrl × Nat) :=
  let count := c.count
  if c.pop ≠ 0 ∨ count ≤ c.push then none
  else some ((c.setPop 1).setCount (count - 1), (c.next + depth + (2 ^ 32 - count)) % 2 ^ 32)

def tryPeekBegin (depth : Nat) : Option (Ctrl × Nat) :=
  let count := c.count
  if c.pop ≠ 0 ∨ count ≤ c.push then none
  else some (c.setPop 1, (c.next + depth + (2 ^ 32 - count)) % 2 ^ 32)

def popEnd : Ctrl := c.setPop 0

def tryClearBegin1 : Option Ctrl := if c.pop ≠ 0 then none else some (c.setPop 1)

def tryClearBegin2 : Option Ctrl := if c.push ≠ 0 then none else some (c.setPush 1)

/-- Where a thread is in a call. A pop or a peek has a result when it has copied. -/
inductive Phase (V : Type)
  | idle
  | pushing (position : Nat) (value : V) (copied : Bool)
  | taking (position : Nat) (peek : Bool) (result : Option V)
  | clearing (both : Bool)

structure State (T V : Type) where
  ctrl : Ctrl
  buffer : Nat -> V
  phase : T -> Phase V
  history : List (Event V)

inductive Action (T V : Type)
  | pushBegin (t : T) (value : V)
  | pushCopy (t : T)
  | pushEnd (t : T)
  | popBegin (t : T)
  | peekBegin (t : T)
  | popCopy (t : T)
  | popEnd (t : T)
  | clearBegin1 (t : T)
  | clearBegin2 (t : T)
  | clearStore (t : T)
  | clearStopped (t : T)

variable {T V : Type} [DecidableEq T]

namespace State

def moved (s : State T V) (t : T) (ctrl : Ctrl) (phase : Phase V) : State T V :=
  { s with ctrl := ctrl, phase := Function.update s.phase t phase }

def log (s : State T V) (event : Event V) : State T V :=
  { s with history := s.history ++ [event] }

-- An attempt that fails is repeated, or the call returns that the queue is busy.
def step (depth : Nat) (s : State T V) : Action T V -> Option (State T V)
  | .pushBegin t value =>
    match s.phase t with
    | .idle =>
      match tryPushBegin s.ctrl depth with
      | none => some s
      | some (ctrl, position) =>
        some ((s.moved t ctrl (.pushing position value false)).log (.push value))
    | _ => none
  | .pushCopy t =>
    match s.phase t with
    | .pushing position value false =>
      some { s.moved t s.ctrl (.pushing position value true) with
        buffer := Function.update s.buffer position value }
    | _ => none
  | .pushEnd t =>
    match s.phase t with
    | .pushing _ _ true => some (s.moved t (SyncQueue.pushEnd s.ctrl) .idle)
    | _ => none
  | .popBegin t =>
    match s.phase t with
    | .idle =>
      match tryPopBegin s.ctrl depth with
      | none => some s
      | some (ctrl, position) => some (s.moved t ctrl (.taking position false none))
    | _ => none
  | .peekBegin t =>
    match s.phase t with
    | .idle =>
      match tryPeekBegin s.ctrl depth with
      | none => some s
      | some (ctrl, position) => some (s.moved t ctrl (.taking position true none))
    | _ => none
  | .popCopy t =>
    match s.phase t with
    | .taking position peek none =>
      let value := s.buffer (position % depth)
      some ((s.moved t s.ctrl (.taking position peek (some value))).log
        (if peek then .peek value else .pop value))
    | _ => none
  | .popEnd t =>
    match s.phase t with
    | .taking _ _ (some _) => some (s.moved t (SyncQueue.popEnd s.ctrl) .idle)
    | _ => none
  | .clearBegin1 t =>
    match s.phase t with
    | .idle =>
      match tryClearBegin1 s.ctrl with
      | none => some s
      | some ctrl => some (s.moved t ctrl (.clearing false))
    | _ => none
  | .clearBegin2 t =>
    match s.phase t with
    | .clearing false =>
      match tryClearBegin2 s.ctrl with
      | none => some s
      | some ctrl => some (s.moved t ctrl (.clearing true))
    | _ => none
  | .clearStore t =>
    match s.phase t with
    | .clearing true => some ((s.moved t ⟨0, 0⟩ .idle).log .clear)
    | _ => none
  | .clearStopped t =>
    match s.phase t with
    | .clearing false => some (s.moved t s.ctrl .idle)
    | _ => none

end State

def queue (T V : Type) [DecidableEq T] (depth : Nat) : Transition.System (State T V) (Action T V) where
  init := fun s => s.ctrl = ⟨0, 0⟩ ∧ (∀ t, s.phase t = .idle) ∧ s.history = []
  step := State.step depth

end EmuCore.Cell.SyncQueue
