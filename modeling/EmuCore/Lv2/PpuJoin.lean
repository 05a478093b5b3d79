import EmuCore.Lib.Transition

namespace EmuCore.Lv2.PpuJoin

open Function

/- ppu_join_status: larger values are the ID of the thread that joins. -/

def joinable : Nat := 0

def detached : Nat := 1

def zombie : Nat := 2

def exited : Nat := 3

def idBase : Nat := 0x01000000

-- A thread waits in its exit while it is a zombie, then releases its stack and ends.
inductive Phase
  | running
  | waiting
  | released
  | finished
deriving DecidableEq

structure Thread (P : Type) where
  id : Nat
  bornDetached : Bool
  joiner : Nat
  phase : Phase
  gpr3 : Nat
  oldPpu : Option P
  withdrawals : Nat
  releases : Nat
  turn : Nat

inductive Code
  | edeadlk
  | esrch
  | einval
  | ebusy
deriving DecidableEq

inductive Result
  | ok
  | delivered (vret : Nat)
  | efault
  | error (code : Code)
  | again
  | ensureFailed
deriving DecidableEq

inductive Call (P : Type)
  | idle
  | waiting (target : P) (threadId : Nat) (eagain : Bool) (vptr : Bool)
  | removing (target : P) (threadId : Nat) (vret : Nat) (vptr : Bool)
  | finishing (target : P)
  | returned (found : Option P) (result : Result)

structure State (P : Type) where
  threads : P -> Option (Thread P)
  ids : Nat -> Option P
  -- ppu_thread_cleaner
  old : Option P
  calls : Nat -> Call P
  exits : Nat

variable {P : Type} [DecidableEq P]

def State.setThread (s : State P) (t : P) (th : Thread P) : State P :=
  { s with threads := update s.threads t (some th) }

def State.setCall (s : State P) (c : Nat) (call : Call P) : State P :=
  { s with calls := update s.calls c call }

def Thread.withdrawn (th : Thread P) : Thread P := { th with withdrawals := th.withdrawals + 1 }

variable (s : State P)

def withdraw (id : Nat) : State P :=
  match s.ids id with
  | none => s
  | some t =>
    { s with
      ids := update s.ids id none
      threads := update s.threads t ((s.threads t).map Thread.withdrawn) }

def create (t : P) (id : Nat) (isDetached : Bool) (arg : Nat) : Option (State P) :=
  if s.threads t = none ∧ s.ids id = none ∧ idBase ≤ id then
    some { s with
      threads := update s.threads t
        (some ⟨id, isDetached, if isDetached then detached else joinable, .running, arg, none, 0, 0, 0⟩)
      ids := update s.ids id (some t) }
  else none

def compute (t : P) (value : Nat) : Option (State P) :=
  match s.threads t with
  | none => none
  | some th => if th.phase = .running then some (s.setThread t { th with gpr3 := value }) else none

-- _sys_ppu_thread_exit, under the lock of the IDs.
def exit (t : P) : Option (State P) :=
  match s.threads t with
  | none => none
  | some th =>
    if th.phase ≠ .running then none
    else if th.joiner = joinable then
      let waits : Thread P := { th with joiner := zombie, phase := .waiting, turn := s.exits, oldPpu := none }
      some { s.setThread t waits with exits := s.exits + 1 }
    else
      let gone : Thread P := { th with joiner := exited, phase := .waiting, turn := s.exits, oldPpu := s.old }
      some { withdraw (s.setThread t gone) th.id with old := s.ids th.id, exits := s.exits + 1 }

-- The rest of it: the stack is released when the thread is no zombie any more.
def leave (t : P) : Option (State P) :=
  match s.threads t with
  | none => none
  | some th =>
    if th.phase = .waiting ∧ th.joiner ≠ zombie then
      some (s.setThread t { th with phase := .released, releases := th.releases + 1 })
    else none

def isFinished (t : P) : Bool := (s.threads t).any fun th => th.phase = .finished

def finish (t : P) : Option (State P) :=
  match s.threads t with
  | none => none
  | some th =>
    if th.phase = .released ∧ th.oldPpu.all (isFinished s) then
      some (s.setThread t { th with phase := .finished })
    else none

-- sys_ppu_thread_join, under the lock of the IDs.
def join (c : Nat) (caller : P) (threadId : Nat) (vptr : Bool) : Option (State P) :=
  match s.calls c, s.threads caller with
  | .idle, some me =>
    if threadId = me.id then some (s.setCall c (.returned none (.error .edeadlk)))
    else
      match s.ids threadId with
      | none => some (s.setCall c (.returned none (.error .esrch)))
      | some t =>
        match s.threads t with
        | none => none
        | some th =>
          if th.joiner = joinable then
            some ((s.setThread t { th with joiner := me.id }).setCall c (.waiting t threadId false vptr))
          else if th.joiner = zombie then
            some ((s.setThread t { th with joiner := exited }).setCall c (.waiting t threadId true vptr))
          else if th.joiner = exited then some (s.setCall c (.returned (some t) (.error .esrch)))
          else some (s.setCall c (.returned (some t) (.error .einval)))
  | _, _ => none

def deliver (vptr : Bool) (vret : Nat) : Result := if vptr then .delivered vret else .efault

variable (s : State P) (c : Nat)

def joinResume : Option (State P) :=
  match s.calls c with
  | .waiting t threadId eagain vptr =>
    match s.threads t with
    | none => none
    | some th =>
      if th.phase ≠ .finished then none
      else if th.joiner ≠ exited then some (s.setCall c (.returned (some t) .again))
      else if eagain then some (s.setCall c (.removing t threadId th.gpr3 vptr))
      else some (s.setCall c (.returned (some t) (deliver vptr th.gpr3)))
  | _ => none

def joinRemove : Option (State P) :=
  match s.calls c with
  | .removing t threadId vret vptr =>
    if s.ids threadId = some t then
      some ((withdraw s threadId).setCall c (.returned (some t) (deliver vptr vret)))
    else some (s.setCall c (.returned (some t) .ensureFailed))
  | _ => none

-- sys_ppu_thread_detach, under the lock of the IDs.
def detach (threadId : Nat) : Option (State P) :=
  match s.calls c with
  | .idle =>
    match s.ids threadId with
    | none => some (s.setCall c (.returned none (.error .esrch)))
    | some t =>
      match s.threads t with
      | none => none
      | some th =>
        if th.joiner = joinable then
          some ((s.setThread t { th with joiner := detached }).setCall c (.returned (some t) .ok))
        else if th.joiner = detached then some (s.setCall c (.returned (some t) (.error .einval)))
        else if th.joiner = zombie then
          some ((withdraw (s.setThread t { th with joiner := exited }) threadId).setCall c (.finishing t))
        else if th.joiner = exited then some (s.setCall c (.returned (some t) (.error .esrch)))
        else some (s.setCall c (.returned (some t) (.error .ebusy)))
  | _ => none

def detachFinish : Option (State P) :=
  match s.calls c with
  | .finishing t => if isFinished s t then some (s.setCall c (.returned (some t) .ok)) else none
  | _ => none

inductive Action (P : Type)
  | create (t : P) (id : Nat) (isDetached : Bool) (arg : Nat)
  | compute (t : P) (value : Nat)
  | exit (t : P)
  | leave (t : P)
  | finish (t : P)
  | join (c : Nat) (caller : P) (threadId : Nat) (vptr : Bool)
  | joinResume (c : Nat)
  | joinRemove (c : Nat)
  | detach (c : Nat) (threadId : Nat)
  | detachFinish (c : Nat)

def perform (s : State P) : Action P -> Option (State P)
  | .create t id isDetached arg => create s t id isDetached arg
  | .compute t value => compute s t value
  | .exit t => exit s t
  | .leave t => leave s t
  | .finish t => finish s t
  | .join c caller threadId vptr => join s c caller threadId vptr
  | .joinResume c => joinResume s c
  | .joinRemove c => joinRemove s c
  | .detach c threadId => detach s c threadId
  | .detachFinish c => detachFinish s c

def start : State P := ⟨fun _ => none, fun _ => none, none, fun _ => .idle, 0⟩

def system (P : Type) [DecidableEq P] : Transition.System (State P) (Action P) where
  init := fun s => s = start
  step := perform

end EmuCore.Lv2.PpuJoin
