import EmuCore.Lib.LinkedList
import EmuCore.Lib.Transition
import EmuCore.Lv2.Sync

namespace EmuCore.Lv2.Mutex

open LinkedList

structure Config where
  protocol : Protocol
  recursive : Bool

/-- `control_data_t`: the id of the owner (0 for none) and the head of the wait queue. -/
structure Control where
  owner : Nat
  sq : Option ThreadId
deriving DecidableEq

inductive Place
  | idle
  | lockRetry
  | lockCas (it : Control)
  | lockBusy
  | trylockCas (it : Control)
  | ownRun (old : Control)
  | ownCas (old : Control)
  | lockWait
  | lockSync
  | lockTimeout
  | lockLeave
  | unlockCas (it : Control)
  | unlockLock
deriving DecidableEq

inductive Section
  | reownLoad
  | reownRun (old : Control) (seen : List ThreadId)
  | reownFree (old : Control) (seen : List ThreadId)
  | reownCas (old new : Control) (seen : List ThreadId) (res : ThreadId) (prio : ThreadId -> Prio)
  | reownStore (seen : List ThreadId) (res : ThreadId) (prio : ThreadId -> Prio)
  | reownDetach (res : ThreadId)
  | timeoutLoad
  | timeoutRun (old : Control) (seen : List ThreadId)
  | timeoutCas (old new : Control) (seen : List ThreadId)
  | timeoutDone

structure Grant where
  thread : ThreadId
  seen : List ThreadId
  prio : ThreadId -> Prio

structure State where
  control : Control
  lockCount : Nat
  next : ThreadId -> Option ThreadId
  order : ThreadId -> Int
  tag : Int
  mutex : Option (ThreadId × Section)
  place : ThreadId -> Place
  -- The threads pushed and not yet unlinked, those that own the mutex, those that were made owner
  -- while they waited, and what `reown` has handed out.
  queue : List ThreadId
  holders : List ThreadId
  woken : List ThreadId
  grants : List Grant
  failed : Bool

def start : State where
  control := ⟨0, none⟩
  lockCount := 0
  next := fun _ => none
  order := fun _ => 0
  tag := 0
  mutex := none
  place := fun _ => .idle
  queue := []
  holders := []
  woken := []
  grants := []
  failed := false

inductive Call
  | lock
  | trylock
  | unlock
deriving DecidableEq

structure Action where
  thread : ThreadId
  call : Call
  timeout : Bool
  retry : Bool
  prio : ThreadId -> Int

namespace State

variable (s : State)

def goto (t : ThreadId) (place : Place) : State :=
  { s with place := Function.update s.place t place }

def enter (t : ThreadId) (sec : Section) : Option State :=
  if s.mutex.isNone then some { s with mutex := some (t, sec) } else none

def within (t : ThreadId) (sec : Section) : State := { s with mutex := some (t, sec) }

def leave : State := { s with mutex := none }

def setNext (t : ThreadId) (value : Option ThreadId) : State :=
  { s with next := Function.update s.next t value }

-- The wait of sys_mutex_lock returns CELL_OK.
def lockReturn (t : ThreadId) : State :=
  { s.goto t .idle with
    woken := s.woken.erase t
    failed := s.failed || !decide (t ∈ s.woken) }

-- Follow the list from the head that was loaded. There are fewer than 2^31 threads.
def linked (old : Control) : Option (List ThreadId) := walk s.next (2 ^ 31) old.sq

end State

def tryLock (cfg : Config) (s : State) (t : ThreadId) (cas : Control -> Place) (busy : Place) :
    State :=
  if s.control.owner = 0 then s.goto t (cas s.control)
  else if s.control.owner = t.id then
    if cfg.recursive then
      if s.lockCount = 0xffffffff then s.goto t .idle
      else { s with lockCount := s.lockCount + 1 }.goto t .idle
    else s.goto t .idle
  else s.goto t busy

variable (s : State) (t : ThreadId)

def tryLockCas (it : Control) (busy : Place) : State :=
  if s.control = it then
    { s with control := { it with owner := t.id }, holders := t :: s.holders }.goto t .idle
  else s.goto t busy

def lockBusy (retry : Bool) : State :=
  if retry ∧ s.control.sq = none then s.goto t .lockRetry else s.goto t (.ownRun s.control)

def tryOwnRun (old : Control) : State :=
  if old.owner ≠ 0 then
    ({ s with
        order := Function.update s.order t (s.tag + 1)
        tag := s.tag + 1 }.setNext t old.sq).goto t (.ownCas old)
  else s.goto t (.ownCas old)

def tryOwnCas (old : Control) : State :=
  if s.control = old then
    if old.owner ≠ 0 then
      { s with control := { old with sq := some t }, queue := t :: s.queue }.goto t .lockWait
    else
      ({ s with
          control := { old with owner := t.id }
          holders := t :: s.holders }.setNext t none).goto t .idle
  else s.goto t (.ownRun s.control)

def lockProbe : State :=
  if s.control.sq = none then s.goto t .lockSync else s.goto t .lockTimeout

def tryUnlock : State :=
  if s.control.owner ≠ t.id then s
  else if s.lockCount ≠ 0 then { s with lockCount := s.lockCount - 1 }
  else if s.control.sq = none then s.goto t (.unlockCas s.control)
  else s.goto t .unlockLock

def tryUnlockCas (it : Control) : State :=
  if s.control = it then
    { s with control := { it with owner := 0 }, holders := s.holders.erase t }.goto t .idle
  else s.goto t .unlockLock

-- `schedule` with `modify_node = false`: a chosen head is only taken off the copy of the control
-- word, any other node is unlinked in place.
def reownRun (cfg : Config) (prio : ThreadId -> Prio) (s : State) (t : ThreadId) (old : Control)
    (seen : List ThreadId) : State :=
  match s.linked old with
  | none => { s with failed := true }.leave
  | some [] => s.within t (.reownFree old seen)
  | some (it :: rest) =>
    let res := scheduleFound cfg.protocol prio it rest
    let after := if cfg.protocol = .fifo then none else s.next res
    if res = it then s.within t (.reownCas old ⟨res.id, after⟩ seen res prio)
    else
      { s with
        next := relink s.next (it :: rest) res after
        queue := s.queue.erase res }.within t (.reownStore seen res prio)

variable (s : State)

def reownFree (t : ThreadId) (old : Control) : State :=
  if s.control = old then
    ({ s with control := { old with owner := 0 }, holders := s.holders.erase t }.goto t .idle).leave
  else s.within t (.reownRun s.control s.queue)

def reownCas (t : ThreadId) (old new : Control) (seen : List ThreadId) (res : ThreadId)
    (prio : ThreadId -> Prio) : State :=
  if s.control = old then
    ({ s with
        control := new
        queue := s.queue.erase res
        holders := res :: s.holders.erase t
        grants := ⟨res, seen, prio⟩ :: s.grants }.goto t .idle).within t (.reownDetach res)
  else s.within t (.reownRun s.control s.queue)

def reownStore (t : ThreadId) (seen : List ThreadId) (res : ThreadId)
    (prio : ThreadId -> Prio) : State :=
  ({ s with
      control := { s.control with owner := res.id }
      holders := res :: s.holders.erase t
      grants := ⟨res, seen, prio⟩ :: s.grants }.goto t .idle).within t (.reownDetach res)

def reownDetach (t res : ThreadId) : State :=
  (({ s with woken := res :: s.woken }.setNext res none).goto t .idle).leave

def timeoutRun (t : ThreadId) (old : Control) (seen : List ThreadId) : State :=
  match s.linked old with
  | none => { s with failed := true }.leave
  | some [] => (s.lockReturn t).leave
  | some (it :: rest) =>
    if it = t then s.within t (.timeoutCas old { old with sq := s.next t } seen)
    else if t ∈ rest then
      ({ s with
          next := relink s.next (it :: rest) t (s.next t)
          queue := s.queue.erase t }.goto t .lockLeave).within t .timeoutDone
    else (s.lockReturn t).leave

def timeoutCas (t : ThreadId) (old new : Control) : State :=
  if s.control = old then
    ({ s with
        control := new
        queue := s.queue.erase t }.goto t .lockLeave).within t .timeoutDone
  else s.within t (.timeoutRun s.control s.queue)

def timeoutDone (t : ThreadId) : State := ((s.setNext t none).goto t .idle).leave

variable (cfg : Config)

def call (s : State) (t : ThreadId) : Call -> State
  | .lock => tryLock cfg s t .lockCas .lockBusy
  | .trylock => tryLock cfg s t .trylockCas .idle
  | .unlock => tryUnlock s t

def outside (s : State) (a : Action) : Option State :=
  match s.place a.thread with
  | .idle => some (call cfg s a.thread a.call)
  | .lockRetry => some (tryLock cfg s a.thread .lockCas .lockBusy)
  | .lockCas it => some (tryLockCas s a.thread it .lockBusy)
  | .lockBusy => some (lockBusy s a.thread a.retry)
  | .trylockCas it => some (tryLockCas s a.thread it .idle)
  | .ownRun old => some (tryOwnRun s a.thread old)
  | .ownCas old => some (tryOwnCas s a.thread old)
  | .lockWait =>
    if a.timeout then some (lockProbe s a.thread)
    else if a.thread ∈ s.woken then some (s.lockReturn a.thread) else none
  | .lockSync => if s.mutex.isNone then some (s.lockReturn a.thread) else none
  | .lockTimeout => s.enter a.thread .timeoutLoad
  | .lockLeave => none
  | .unlockCas it => some (tryUnlockCas s a.thread it)
  | .unlockLock => s.enter a.thread .reownLoad

def inside (prio : ThreadId -> Prio) (s : State) (t : ThreadId) : Section -> State
  | .reownLoad => s.within t (.reownRun s.control s.queue)
  | .reownRun old seen => reownRun cfg prio s t old seen
  | .reownFree old _ => reownFree s t old
  | .reownCas old new seen res prio => reownCas s t old new seen res prio
  | .reownStore seen res prio => reownStore s t seen res prio
  | .reownDetach res => reownDetach s t res
  | .timeoutLoad => s.within t (.timeoutRun s.control s.queue)
  | .timeoutRun old seen => timeoutRun s t old seen
  | .timeoutCas old new _ => timeoutCas s t old new
  | .timeoutDone => timeoutDone s t

def step (s : State) (a : Action) : Option State :=
  match s.mutex with
  | some (t, sec) =>
    if t = a.thread then some (inside cfg (fun u => ⟨a.prio u, s.order u⟩) s t sec)
    else outside cfg s a
  | none => outside cfg s a

def system : Transition.System State Action where
  init := fun s => s = start
  step := step cfg

end EmuCore.Lv2.Mutex
