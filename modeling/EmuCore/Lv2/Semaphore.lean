import EmuCore.Lib.Transition
import EmuCore.Lv2.Sync

namespace EmuCore.Lv2.Semaphore

def s32 (val : Int) : Int := Int.bmod val (2 ^ 32)

def u32 (val : Int) : Int := val % 2 ^ 32

structure Config where
  protocol : Protocol
  initial : Int
  max : Int
  initial_nonneg : 0 ≤ initial
  initial_le : initial ≤ max
  max_lt : max < 2 ^ 31

inductive Place
  | idle
  | waitCas (val : Int)
  | waitLock
  | waiting
  | waitTimeout
  | waitLeave
  | postCas (val count : Int)
  | postLock (count : Int)
deriving DecidableEq

inductive Section
  | waitDec
  | waitEmplace
  | waitUnqueue
  | waitInc
  | postOp (count : Int)
  | postWake (count : Int) (left : Nat)
deriving DecidableEq

structure State where
  val : Int
  sq : WaitQueue
  mutex : Option (ThreadId × Section)
  place : ThreadId -> Place
  -- Counts of the successful posts, number of waits that returned CELL_OK, threads chosen for
  -- wake-up that have not returned yet.
  posted : Int
  returned : Nat
  woken : List ThreadId
  failed : Bool

def start (cfg : Config) : State where
  val := cfg.initial
  sq := []
  mutex := none
  place := fun _ => .idle
  posted := 0
  returned := 0
  woken := []
  failed := false

inductive Call
  | wait
  | trywait
  | post (count : BitVec 32)
deriving DecidableEq

structure Action where
  thread : ThreadId
  call : Call
  timeout : Bool
  prio : ThreadId -> Prio

namespace State

variable (s : State) (t : ThreadId)

def goto (place : Place) : State :=
  { s with place := Function.update s.place t place }

def enter (sec : Section) : Option State :=
  if s.mutex = none then some { s with mutex := some (t, sec) } else none

def within (sec : Section) : State := { s with mutex := some (t, sec) }

def leave (s : State) : State := { s with mutex := none }

def waitReturn (s : State) (t : ThreadId) : State :=
  { s.goto t .idle with
    woken := s.woken.erase t
    returned := s.returned + 1
    failed := s.failed || !decide (t ∈ s.woken) }

end State

variable (s : State) (t : ThreadId)

def sysSemaphoreWait : State :=
  if 0 < s.val then s.goto t (.waitCas s.val) else s.goto t .waitLock

def waitCas (val : Int) : State :=
  if s.val = val then
    { s with val := s32 (val - 1), returned := s.returned + 1 }.goto t .idle
  else s.goto t .waitLock

def waitDec : State :=
  if s.val ≤ 0 then { s with val := s32 (s.val - 1) }.within t .waitEmplace
  else ({ s with val := s32 (s.val - 1), returned := s.returned + 1 }.goto t .idle).leave

def waitEmplace : State :=
  ({ s with sq := emplace s.sq t }.goto t .waiting).leave

def waitUnqueue : State :=
  match unqueue s.sq t with
  | none => (s.waitReturn t).leave
  | some sq => ({ s with sq := sq }.goto t .waitLeave).within t .waitInc

-- `ensure(0 > val.fetch_op(..))`
def waitInc : State :=
  ({ s with
      val := if s.val < 0 then s32 (s.val + 1) else s.val
      failed := s.failed || !decide (s.val < 0) }.goto t .idle).leave

def sysSemaphoreTrywait (s : State) : State :=
  if 0 < s.val then { s with val := s32 (s.val - 1), returned := s.returned + 1 } else s

def sysSemaphorePost (cfg : Config) (s : State) (t : ThreadId) (count : Int) : State :=
  if 0 ≤ s.val ∧ 0 < count ∧ count ≤ s32 (cfg.max - s.val) then s.goto t (.postCas s.val count)
  else if count ≤ 0 then s
  else s.goto t (.postLock count)

def postCas (s : State) (t : ThreadId) (val count : Int) : State :=
  if s.val = val then
    { s with val := s32 (val + count), posted := s.posted + count }.goto t .idle
  else s.goto t (.postLock count)

def toAwake (val count : Int) : Nat := (min (-(min val 0)) count).toNat

-- `count + 0u <= max + 0u - val`
def postOp (cfg : Config) (s : State) (t : ThreadId) (count : Int) : State :=
  if u32 count ≤ u32 (cfg.max - s.val) then
    { s with val := s32 (s.val + count), posted := s.posted + count }.within t
      (.postWake count (toAwake s.val count))
  else (s.goto t .idle).leave

def postWake (cfg : Config) (prio : ThreadId -> Prio) (s : State) (t : ThreadId) (count : Int) :
    Nat -> State
  | 0 => (s.goto t .idle).leave
  | left + 1 =>
    match schedule cfg.protocol prio s.sq with
    | some (cpu, sq) => { s with sq := sq, woken := cpu :: s.woken }.within t (.postWake count left)
    | none => { s with failed := true }.within t (.postWake count left)

variable (cfg : Config)

def call (s : State) (t : ThreadId) : Call -> State
  | .wait => sysSemaphoreWait s t
  | .trywait => sysSemaphoreTrywait s
  | .post count => sysSemaphorePost cfg s t count.toInt

def outside (s : State) (a : Action) : Option State :=
  match s.place a.thread with
  | .idle => some (call cfg s a.thread a.call)
  | .waitCas val => some (waitCas s a.thread val)
  | .waitLock => s.enter a.thread .waitDec
  | .waiting =>
    if a.timeout then some (s.goto a.thread .waitTimeout)
    else if a.thread ∈ s.woken then some (s.waitReturn a.thread) else none
  | .waitTimeout => s.enter a.thread .waitUnqueue
  | .waitLeave => none
  | .postCas val count => some (postCas s a.thread val count)
  | .postLock count => s.enter a.thread (.postOp count)

def inside (prio : ThreadId -> Prio) (s : State) (t : ThreadId) : Section -> State
  | .waitDec => waitDec s t
  | .waitEmplace => waitEmplace s t
  | .waitUnqueue => waitUnqueue s t
  | .waitInc => waitInc s t
  | .postOp count => postOp cfg s t count
  | .postWake count left => postWake cfg prio s t count left

def step (s : State) (a : Action) : Option State :=
  match s.mutex with
  | some (t, sec) => if t = a.thread then some (inside cfg a.prio s t sec) else outside cfg s a
  | none => outside cfg s a

def system : Transition.System State Action where
  init := fun s => s = start cfg
  step := step cfg

end EmuCore.Lv2.Semaphore
