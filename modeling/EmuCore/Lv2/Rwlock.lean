import EmuCore.Lib.Transition
import EmuCore.Lv2.Sync

namespace EmuCore.Lv2.Rwlock

-- The word `owner`: bit 0 says that somebody waits.
def waitBit (val : Int) : Bool := val % 2 == 1

def setWaitBit (val : Int) : Int := if waitBit val then val else val + 1

def clearWaitBit (val : Int) : Int := val - val % 2

def writerWord (t : ThreadId) : Int := 2 * t.id

def grantWord (t : ThreadId) (wq rq : WaitQueue) : Int :=
  if wq ≠ [] ∨ rq ≠ [] then writerWord t + 1 else writerWord t

/-- Where a thread stands outside the sections that `mutex` protects. -/
inductive Place
  | idle
  | rlockCas (val : Int)
  | rlockLock
  | rlockWait
  | rlockSync
  | rlockTimeout
  | runlockCas (val : Int)
  | runlockLock
  | wlockCas
  | wlockLock
  | wlockWait
  | wlockTimeout
  | wlockLeave
  | trywlockCas
  | wunlockCas (val : Int)
  | wunlockLock
deriving DecidableEq

/-- Where the thread that holds `mutex` stands. -/
inductive Section
  | rlockOp
  | rlockEmplace
  | rlockUnqueue
  | runlockOp
  | runlockSchedule
  | runlockGrant (cpu : ThreadId)
  | runlockFree
  | wlockOp
  | wlockEmplace (old : Int)
  | wlockUnqueue
  | wlockLast
  | wlockDrain (cpus : List ThreadId)
  | wlockAdd (cpus : List ThreadId)
  | wlockClear
  | wunlockSchedule
  | wunlockGrant (cpu : ThreadId)
  | wunlockReaders
  | wunlockDrain (cpus : List ThreadId)
  | wunlockRelease (cpus : List ThreadId)
  | wunlockFree
deriving DecidableEq

structure State where
  owner : Int
  rq : WaitQueue
  wq : WaitQueue
  mutex : Option (ThreadId × Section)
  place : ThreadId -> Place
  -- What the threads hold, one entry for each lock, and the waiters that were given theirs.
  readers : List ThreadId
  writers : List ThreadId
  wokenReaders : List ThreadId
  wokenWriters : List ThreadId
  -- An `ensure` failed, or a wait returned CELL_OK to a thread that was given nothing.
  failed : Bool

def start : State where
  owner := 0
  rq := []
  wq := []
  mutex := none
  place := fun _ => .idle
  readers := []
  writers := []
  wokenReaders := []
  wokenWriters := []
  failed := false

inductive Call
  | rlock
  | tryrlock
  | runlock
  | wlock
  | trywlock
  | wunlock
deriving DecidableEq

structure Action where
  thread : ThreadId
  call : Call
  timeout : Bool
  prio : ThreadId -> Prio

namespace State

variable (s : State)

def goto (t : ThreadId) (place : Place) : State :=
  { s with place := Function.update s.place t place }

def enter (t : ThreadId) (sec : Section) : Option State :=
  if s.mutex = none then some { s with mutex := some (t, sec) } else none

def within (t : ThreadId) (sec : Section) : State := { s with mutex := some (t, sec) }

def leave : State := { s with mutex := none }

-- A wait of rlock returns CELL_OK.
def rlockReturn (t : ThreadId) : State :=
  { s.goto t .idle with
    wokenReaders := s.wokenReaders.erase t
    failed := s.failed || !decide (t ∈ s.wokenReaders) }

def wlockReturn (t : ThreadId) : State :=
  { s.goto t .idle with
    wokenWriters := s.wokenWriters.erase t
    failed := s.failed || !decide (t ∈ s.wokenWriters) }

def takeRead (t : ThreadId) (owner : Int) : State :=
  { s with owner := owner, readers := t :: s.readers }

def takeWrite (t : ThreadId) : State :=
  { s with owner := writerWord t, writers := t :: s.writers }

end State

variable (s : State) (t : ThreadId)

def sysRwlockRlock : State :=
  if s.owner ≤ 0 ∧ waitBit s.owner = false then s.goto t (.rlockCas s.owner)
  else s.goto t .rlockLock

def rlockCas (val : Int) : State :=
  if s.owner = val then (s.takeRead t (val - 2)).goto t .idle else s.goto t .rlockLock

def rlockOp : State :=
  if s.owner ≤ 0 ∧ waitBit s.owner = false then
    ((s.takeRead t (s.owner - 2)).goto t .idle).leave
  else { s with owner := setWaitBit s.owner }.within t .rlockEmplace

def rlockEmplace : State :=
  ({ s with rq := emplace s.rq t }.goto t .rlockWait).leave

def rlockProbe : State :=
  if s.rq = [] then s.goto t .rlockSync else s.goto t .rlockTimeout

def rlockUnqueue : State :=
  match unqueue s.rq t with
  | none => (s.rlockReturn t).leave
  | some rq => ({ s with rq := rq }.goto t .idle).leave

def sysRwlockTryrlock : State :=
  if s.owner ≤ 0 ∧ waitBit s.owner = false then s.takeRead t (s.owner - 2) else s

def sysRwlockRunlock : State :=
  if s.owner < 0 ∧ waitBit s.owner = false then s.goto t (.runlockCas s.owner)
  else s.goto t .runlockLock

def runlockCas (val : Int) : State :=
  if s.owner = val then
    { s with owner := val + 2, readers := s.readers.erase t }.goto t .idle
  else s.goto t .runlockLock

def runlockOp : State :=
  if s.owner < -1 then
    ({ s with owner := s.owner + 2, readers := s.readers.erase t }.goto t .idle).leave
  else if 0 ≤ s.owner then (s.goto t .idle).leave
  else s.within t .runlockSchedule

def runlockSchedule (protocol : Protocol) (prio : ThreadId -> Prio) (s : State) (t : ThreadId) :
    State :=
  match schedule protocol prio s.wq with
  | some (cpu, wq) => { s with wq := wq }.within t (.runlockGrant cpu)
  | none => s.within t .runlockFree

variable (s : State)

def runlockGrant (t cpu : ThreadId) : State :=
  ({ s with
      owner := grantWord cpu s.wq s.rq
      readers := s.readers.erase t
      writers := cpu :: s.writers
      wokenWriters := cpu :: s.wokenWriters }.goto t .idle).leave

def runlockFree (t : ThreadId) : State :=
  ({ s with
      owner := 0
      readers := s.readers.erase t
      failed := s.failed || !decide (s.rq = []) }.goto t .idle).leave

def sysRwlockWlock (t : ThreadId) : State :=
  if s.owner = 0 then s.goto t .wlockCas
  else if s.owner / 2 = t.id then s
  else s.goto t .wlockLock

def wlockCas (t : ThreadId) : State :=
  if s.owner = 0 then (s.takeWrite t).goto t .idle else s.goto t .wlockLock

def wlockOp (t : ThreadId) : State :=
  if s.owner = 0 then ((s.takeWrite t).goto t .idle).leave
  else { s with owner := setWaitBit s.owner }.within t (.wlockEmplace s.owner)

def wlockEmplace (t : ThreadId) (old : Int) : State :=
  ({ s with wq := emplace s.wq t }.goto t (if old / 2 = t.id then .idle else .wlockWait)).leave

def wlockUnqueue (t : ThreadId) : State :=
  match unqueue s.wq t with
  | none => (s.wlockReturn t).leave
  | some wq => ({ s with wq := wq }.goto t .wlockLeave).within t .wlockLast

def wlockLast (t : ThreadId) : State :=
  if s.rq ≠ [] ∧ s.wq = [] ∧ s.owner < 0 then s.within t (.wlockDrain [])
  else if s.rq = [] ∧ s.wq = [] then s.within t .wlockClear
  else (s.goto t .idle).leave

def wlockDrain (prio : ThreadId -> Prio) (s : State) (t : ThreadId) (cpus : List ThreadId) :
    State :=
  match schedule .fifo prio s.rq with
  | some (cpu, rq) => { s with rq := rq }.within t (.wlockDrain (cpu :: cpus))
  | none => s.within t (.wlockAdd cpus)

variable (s : State) (t : ThreadId)

def wlockAdd (cpus : List ThreadId) : State :=
  ({ s with
      owner := clearWaitBit (s.owner - 2 * cpus.length)
      readers := cpus ++ s.readers
      wokenReaders := cpus ++ s.wokenReaders }.goto t .idle).leave

def wlockClear : State :=
  ({ s with owner := clearWaitBit s.owner }.goto t .idle).leave

def sysRwlockTrywlock : State :=
  if s.owner = 0 then s.goto t .trywlockCas else s

def trywlockCas : State :=
  if s.owner = 0 then (s.takeWrite t).goto t .idle else s.goto t .idle

def sysRwlockWunlock : State :=
  if s.owner = writerWord t then s.goto t (.wunlockCas s.owner)
  else if s.owner / 2 = t.id ∧ waitBit s.owner then s.goto t .wunlockLock
  else s

def wunlockCas (val : Int) : State :=
  if s.owner = val then
    { s with owner := 0, writers := s.writers.erase t }.goto t .idle
  else if s.owner / 2 = t.id ∧ waitBit s.owner then s.goto t .wunlockLock
  else s.goto t .idle

def wunlockSchedule (protocol : Protocol) (prio : ThreadId -> Prio) (s : State) (t : ThreadId) :
    State :=
  match schedule protocol prio s.wq with
  | some (cpu, wq) => { s with wq := wq }.within t (.wunlockGrant cpu)
  | none => s.within t .wunlockReaders

def wunlockGrant (s : State) (t cpu : ThreadId) : State :=
  ({ s with
      owner := grantWord cpu s.wq s.rq
      writers := cpu :: s.writers.erase t
      wokenWriters := cpu :: s.wokenWriters }.goto t .idle).leave

def wunlockReaders (s : State) (t : ThreadId) : State :=
  if s.rq ≠ [] then s.within t (.wunlockDrain []) else s.within t .wunlockFree

def wunlockDrain (prio : ThreadId -> Prio) (s : State) (t : ThreadId) (cpus : List ThreadId) :
    State :=
  match schedule .fifo prio s.rq with
  | some (cpu, rq) => { s with rq := rq }.within t (.wunlockDrain (cpu :: cpus))
  | none => s.within t (.wunlockRelease cpus)

variable (s : State) (t : ThreadId)

def wunlockRelease (cpus : List ThreadId) : State :=
  ({ s with
      owner := -2 * cpus.length
      readers := cpus ++ s.readers
      writers := s.writers.erase t
      wokenReaders := cpus ++ s.wokenReaders }.goto t .idle).leave

def wunlockFree : State :=
  ({ s with owner := 0, writers := s.writers.erase t }.goto t .idle).leave

def call : Call -> Option State
  | .rlock => some (sysRwlockRlock s t)
  | .tryrlock => some (sysRwlockTryrlock s t)
  | .runlock => if t ∈ s.readers then some (sysRwlockRunlock s t) else none
  | .wlock => some (sysRwlockWlock s t)
  | .trywlock => some (sysRwlockTrywlock s t)
  | .wunlock => if t ∈ s.writers then some (sysRwlockWunlock s t) else none

def outside (s : State) (a : Action) : Option State :=
  match s.place a.thread with
  | .idle => call s a.thread a.call
  | .rlockCas val => some (rlockCas s a.thread val)
  | .rlockLock => s.enter a.thread .rlockOp
  | .rlockWait =>
    if a.timeout then some (rlockProbe s a.thread)
    else if a.thread ∈ s.wokenReaders then some (s.rlockReturn a.thread) else none
  | .rlockSync => if s.mutex = none then some (s.rlockReturn a.thread) else none
  | .rlockTimeout => s.enter a.thread .rlockUnqueue
  | .runlockCas val => some (runlockCas s a.thread val)
  | .runlockLock => s.enter a.thread .runlockOp
  | .wlockCas => some (wlockCas s a.thread)
  | .wlockLock => s.enter a.thread .wlockOp
  | .wlockWait =>
    if a.timeout then some (s.goto a.thread .wlockTimeout)
    else if a.thread ∈ s.wokenWriters then some (s.wlockReturn a.thread) else none
  | .wlockTimeout => s.enter a.thread .wlockUnqueue
  | .wlockLeave => none
  | .trywlockCas => some (trywlockCas s a.thread)
  | .wunlockCas val => some (wunlockCas s a.thread val)
  | .wunlockLock => s.enter a.thread .wunlockSchedule

variable (protocol : Protocol)

def inside (prio : ThreadId -> Prio) (s : State) (t : ThreadId) :
    Section -> State
  | .rlockOp => rlockOp s t
  | .rlockEmplace => rlockEmplace s t
  | .rlockUnqueue => rlockUnqueue s t
  | .runlockOp => runlockOp s t
  | .runlockSchedule => runlockSchedule protocol prio s t
  | .runlockGrant cpu => runlockGrant s t cpu
  | .runlockFree => runlockFree s t
  | .wlockOp => wlockOp s t
  | .wlockEmplace old => wlockEmplace s t old
  | .wlockUnqueue => wlockUnqueue s t
  | .wlockLast => wlockLast s t
  | .wlockDrain cpus => wlockDrain prio s t cpus
  | .wlockAdd cpus => wlockAdd s t cpus
  | .wlockClear => wlockClear s t
  | .wunlockSchedule => wunlockSchedule protocol prio s t
  | .wunlockGrant cpu => wunlockGrant s t cpu
  | .wunlockReaders => wunlockReaders s t
  | .wunlockDrain cpus => wunlockDrain prio s t cpus
  | .wunlockRelease cpus => wunlockRelease s t cpus
  | .wunlockFree => wunlockFree s t

def step (s : State) (a : Action) : Option State :=
  match s.mutex with
  | some (t, sec) =>
    if t = a.thread then some (inside protocol a.prio s t sec) else outside s a
  | none => outside s a

def system : Transition.System State Action where
  init := fun s => s = start
  step := step protocol

end EmuCore.Lv2.Rwlock
