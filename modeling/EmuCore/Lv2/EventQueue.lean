import EmuCore.Lib.Transition
import EmuCore.Lv2.Sync

namespace EmuCore.Lv2.EventQueue

open Function

structure Event where
  source : BitVec 64
  data1 : BitVec 64
  data2 : BitVec 64
  data3 : BitVec 64
deriving DecidableEq

/-- An event with the number of the `send` call that carried it. -/
structure Item where
  call : Nat
  event : Event
deriving DecidableEq

structure Config where
  protocol : Protocol
  size : Nat
  size_pos : 1 ≤ size
  size_le : size ≤ 127

inductive Code
  | ok
  | canceled
deriving DecidableEq

inductive Place
  | idle
  | sendLock (event : Event)
  | receiveWait
  | receiveSync
  | receiveTimeout
  | tryreceiveLock (size : Int)
deriving DecidableEq

inductive Section
  | sendOp (event : Event)
  | sendStore (cpu : ThreadId) (item : Item)
  | receiveOp
  | receiveUnqueue
  | tryreceiveExists (size : Int)
  | tryreceiveLoop (size : Int) (events : List Item)
  | drainOp
  | destroyOp (mode : Int)
  | destroyCancel
deriving DecidableEq

structure Delivery where
  thread : ThreadId
  item : Item
  buffered : Bool
deriving DecidableEq

def deliver (t : ThreadId) (buffered : Bool) (items : List Item) : List Delivery :=
  items.map fun item => ⟨t, item, buffered⟩

structure State where
  alive : Bool
  events : List Item
  pq : WaitQueue
  mutex : Option (ThreadId × Section)
  place : ThreadId -> Place
  gpr3 : ThreadId -> Code
  gpr : ThreadId -> Option Item
  woken : List ThreadId
  -- What became of the `send` calls, and of the events of those that succeeded.
  calls : Nat
  accepted : List Item
  refused : List Item
  received : List Delivery
  dropped : List Item
  failed : Bool

def start : State where
  alive := true
  events := []
  pq := []
  mutex := none
  place := fun _ => .idle
  gpr3 := fun _ => .ok
  gpr := fun _ => none
  woken := []
  calls := 0
  accepted := []
  refused := []
  received := []
  dropped := []
  failed := false

inductive Call
  | send (event : Event)
  | receive
  | tryreceive (size : BitVec 32)
  | drain
  | destroy (mode : BitVec 32)
deriving DecidableEq

structure Action where
  thread : ThreadId
  call : Call
  timeout : Bool
  prio : ThreadId -> Prio

namespace State

variable (s : State)

def goto (t : ThreadId) (place : Place) : State :=
  { s with place := update s.place t place }

def enter (t : ThreadId) (sec : Section) : Option State :=
  if s.mutex = none then some { s with mutex := some (t, sec) } else none

def within (t : ThreadId) (sec : Section) : State := { s with mutex := some (t, sec) }

def leave : State := { s with mutex := none }

def accept (item : Item) : State :=
  { s with calls := s.calls + 1, accepted := s.accepted ++ [item] }

def refuse (item : Item) : State :=
  { s with calls := s.calls + 1, refused := s.refused ++ [item] }

-- The blocking receive returns gpr[3]; with CELL_OK the registers must hold an event, otherwise
-- they must not.
def receiveReturn (t : ThreadId) : State :=
  let s := { s.goto t .idle with woken := s.woken.erase t }
  match s.gpr3 t, s.gpr t with
  | .ok, some item => { s with received := s.received ++ deliver t false [item] }
  | .ok, none => { s with failed := true }
  | .canceled, some _ => { s with failed := true }
  | .canceled, none => s

end State

def sendOp (cfg : Config) (prio : ThreadId -> Prio) (s : State) (t : ThreadId) (event : Event) :
    State :=
  let item : Item := ⟨s.calls, event⟩
  if s.alive = false then ((s.refuse item).goto t .idle).leave
  else
    match schedule cfg.protocol prio s.pq with
    | none =>
      if s.events.length < cfg.size then
        ((({ s with events := s.events ++ [item] }).accept item).goto t .idle).leave
      else ((s.refuse item).goto t .idle).leave
    | some (cpu, pq) =>
      (({ s with pq := pq }).accept item).within t (.sendStore cpu item)

variable (s : State)

def sendStore (t cpu : ThreadId) (item : Item) : State :=
  ({ s with gpr := update s.gpr cpu (some item), woken := cpu :: s.woken }.goto t .idle).leave

def receiveOp (t : ThreadId) : State :=
  match s.events with
  | [] =>
    ({ s with
        pq := emplace s.pq t
        gpr3 := update s.gpr3 t .ok
        gpr := update s.gpr t none }.goto t .receiveWait).leave
  | item :: rest =>
    ({ s with events := rest, received := s.received ++ deliver t true [item] }.goto t .idle).leave

def receiveProbe (t : ThreadId) : State :=
  if s.pq = [] then s.goto t .receiveSync else s.goto t .receiveTimeout

-- A thread that is still queued returns CELL_ETIMEDOUT.
def receiveUnqueue (t : ThreadId) : State :=
  match unqueue s.pq t with
  | none => (s.receiveReturn t).leave
  | some pq =>
    ({ s with pq := pq, failed := s.failed || (s.gpr t).isSome }.goto t .idle).leave

def tryreceiveExists (t : ThreadId) (size : Int) : State :=
  if s.alive then s.within t (.tryreceiveLoop size [])
  else (s.goto t .idle).leave

-- The local array has 127 entries.
def tryreceiveLoop (s : State) (t : ThreadId) (size : Int) (events : List Item) : State :=
  match s.events with
  | [] => ({ s with received := s.received ++ deliver t true events }.goto t .idle).leave
  | item :: rest =>
    if (events.length : Int) < size then
      { s with events := rest, failed := s.failed || decide (127 ≤ events.length) }.within t
        (.tryreceiveLoop size (events ++ [item]))
    else ({ s with received := s.received ++ deliver t true events }.goto t .idle).leave

variable (s : State) (t : ThreadId)

def drainOp : State :=
  ({ s with events := [], dropped := s.dropped ++ s.events }.goto t .idle).leave

-- The buffered events stay where they are: nobody can reach the queue any more.
def destroyOp (mode : Int) : State :=
  if mode = 0 ∧ s.pq ≠ [] then (s.goto t .idle).leave
  else if s.pq = [] then ({ s with alive := false }.goto t .idle).leave
  else { s with alive := false }.within t .destroyCancel

def destroyCancel : State :=
  ({ s with
      gpr3 := fun u => if u ∈ s.pq then .canceled else s.gpr3 u
      woken := s.pq ++ s.woken
      pq := [] }.goto t .idle).leave

-- The id of a destroyed queue is not found; it is looked up under a lock that excludes destroy.
def call : Call -> Option State
  | .send event => some (s.goto t (.sendLock event))
  | .receive => if s.alive then s.enter t .receiveOp else some s
  | .tryreceive size => some (if s.alive then s.goto t (.tryreceiveLock size.toInt) else s)
  | .drain => if s.alive then s.enter t .drainOp else some s
  | .destroy mode =>
    if mode ≠ 0 ∧ mode ≠ 1 then some s
    else if s.alive then s.enter t (.destroyOp mode.toInt) else some s

def outside (s : State) (a : Action) : Option State :=
  match s.place a.thread with
  | .idle => call s a.thread a.call
  | .sendLock event => s.enter a.thread (.sendOp event)
  | .receiveWait =>
    if a.timeout then some (receiveProbe s a.thread)
    else if a.thread ∈ s.woken then some (s.receiveReturn a.thread) else none
  | .receiveSync => if s.mutex = none then some (s.receiveReturn a.thread) else none
  | .receiveTimeout => s.enter a.thread .receiveUnqueue
  | .tryreceiveLock size => s.enter a.thread (.tryreceiveExists size)

def inside (cfg : Config) (prio : ThreadId -> Prio) (s : State) (t : ThreadId) : Section -> State
  | .sendOp event => sendOp cfg prio s t event
  | .sendStore cpu item => sendStore s t cpu item
  | .receiveOp => receiveOp s t
  | .receiveUnqueue => receiveUnqueue s t
  | .tryreceiveExists size => tryreceiveExists s t size
  | .tryreceiveLoop size events => tryreceiveLoop s t size events
  | .drainOp => drainOp s t
  | .destroyOp mode => destroyOp s t mode
  | .destroyCancel => destroyCancel s t

def step (cfg : Config) (s : State) (a : Action) : Option State :=
  match s.mutex with
  | some (t, sec) => if t = a.thread then some (inside cfg a.prio s t sec) else outside s a
  | none => outside s a

def system (cfg : Config) : Transition.System State Action where
  init := fun s => s = start
  step := step cfg

open List

/-- Where the events of the accepted `send` calls are: still buffered, taken out of the buffer by
a section that has not delivered them yet, on their direct way to a waiter, dropped or received. -/
structure Ledger where
  events : List Item
  taken : List Item
  direct : List Item
  dropped : List Item
  accepted : List Item
  refused : List Item
  received : List Delivery
  calls : Nat

variable {item : Item} {direct : List Item}

namespace Ledger

def buffered (l : Ledger) : List Item := (l.received.filter Delivery.buffered).map Delivery.item

structure Ok (size : Nat) (l : Ledger) : Prop where
  size : l.events.length + l.taken.length ≤ size
  located : l.accepted.Perm
    (l.received.map Delivery.item ++ l.taken ++ l.direct ++ l.events ++ l.dropped)
  fifo : (l.buffered ++ l.taken ++ l.events).Sublist l.accepted
  calls : ((l.accepted ++ l.refused).map Item.call).Nodup
  fresh : ∀ item ∈ l.accepted ++ l.refused, item.call < l.calls

lemma deliver_item (t : ThreadId) (buffered : Bool) (items : List Item) :
    (deliver t buffered items).map Delivery.item = items := by
  simp [deliver, comp_def]

lemma deliver_buffered (t : ThreadId) (items : List Item) :
    (deliver t true items).filter Delivery.buffered = deliver t true items := by
  simp [deliver, filter_map, comp_def]

lemma deliver_direct (t : ThreadId) (items : List Item) :
    (deliver t false items).filter Delivery.buffered = [] := by
  simp [deliver, filter_map, comp_def]

namespace Ok

variable {size : Nat} {l : Ledger}

variable (ok : l.Ok size)

include ok

variable (call : item.call = l.calls)

include call

lemma calls_accept :
    ((l.accepted ++ [item] ++ l.refused).map Item.call).Nodup := by
  have unused : item.call ∉ (l.accepted ++ l.refused).map Item.call := by
    intro member
    obtain ⟨other, among, same⟩ := mem_map.mp member
    have older := ok.fresh other among
    omega
  have order : (l.accepted ++ [item] ++ l.refused).Perm (item :: (l.accepted ++ l.refused)) := by
    simp [perm_middle]
  rw [(order.map Item.call).nodup_iff, map_cons, nodup_cons]
  exact ⟨unused, ok.calls⟩

lemma fresh_accept :
    ∀ other ∈ l.accepted ++ [item] ++ l.refused, other.call < l.calls + 1 := by
  intro other member
  by_cases same : other = item
  · subst same
    omega
  · have older := ok.fresh other (by simpa [same] using member)
    omega

lemma push (room : l.events.length + l.taken.length < size) :
    Ok size { l with
      events := l.events ++ [item]
      accepted := l.accepted ++ [item]
      calls := l.calls + 1 } where
  size := by
    simp only [length_append, length_singleton]
    omega
  located := perm_iff_count.mpr fun other => by
    have counts := ok.located.count_eq other
    simp only [count_append] at *
    omega
  fifo := by
    have fifo := ok.fifo.append (List.Sublist.refl [item])
    simpa only [buffered, append_assoc] using fifo
  calls := ok.calls_accept call
  fresh := ok.fresh_accept call

lemma hand (added : direct.Perm (item :: l.direct)) :
    Ok size { l with
      direct := direct
      accepted := l.accepted ++ [item]
      calls := l.calls + 1 } where
  size := ok.size
  located := perm_iff_count.mpr fun other => by
    have counts := ok.located.count_eq other
    have more := added.count_eq other
    rw [← singleton_append] at more
    simp only [count_append] at *
    omega
  fifo := ok.fifo.trans (sublist_append_left l.accepted [item])
  calls := ok.calls_accept call
  fresh := ok.fresh_accept call

lemma refuse :
    Ok size { l with refused := l.refused ++ [item], calls := l.calls + 1 } where
  __ := ok
  calls := by
    have order : (l.accepted ++ [item] ++ l.refused).Perm (l.accepted ++ (l.refused ++ [item])) := by
      rw [append_assoc]
      exact perm_append_comm.append_left l.accepted
    exact (order.map Item.call).nodup_iff.mp (ok.calls_accept call)
  fresh := fun other member => ok.fresh_accept call other (by simpa [or_comm, or_assoc] using member)

omit call

lemma redirect (same : l.direct.Perm direct) :
    Ok size { l with direct := direct } where
  __ := ok
  located := ok.located.trans
    (((same.append_left (l.received.map Delivery.item ++ l.taken)).append_right l.events).append_right
      l.dropped)

lemma take {rest : List Item} (front : l.events = item :: rest) :
    Ok size { l with events := rest, taken := l.taken ++ [item] } where
  __ := ok
  size := by
    have size := ok.size
    simp only [front, length_cons, length_append, length_nil] at *
    omega
  located := perm_iff_count.mpr fun other => by
    have counts := ok.located.count_eq other
    rw [front, ← singleton_append] at counts
    simp only [count_append] at *
    omega
  fifo := by simpa [front, buffered] using ok.fifo

lemma deliver_taken (t : ThreadId) :
    Ok size { l with taken := [], received := l.received ++ deliver t true l.taken } where
  __ := ok
  size := by
    have size := ok.size
    simp only [length_nil]
    omega
  located := by simpa [deliver_item] using ok.located
  fifo := by simpa [buffered, deliver_buffered, deliver_item] using ok.fifo

lemma deliver_waiters (t : ThreadId) {items : List Item} (some : l.direct.Perm (items ++ direct)) :
    Ok size { l with direct := direct, received := l.received ++ deliver t false items } where
  __ := ok
  located := perm_iff_count.mpr fun other => by
    have counts := ok.located.count_eq other
    have less := some.count_eq other
    simp only [map_append, deliver_item, count_append] at *
    omega
  fifo := by simpa [buffered, deliver_direct] using ok.fifo

lemma drop :
    Ok size { l with events := [], dropped := l.dropped ++ l.events } where
  __ := ok
  size := by
    have size := ok.size
    simp only [length_nil]
    omega
  located := perm_iff_count.mpr fun other => by
    have counts := ok.located.count_eq other
    simp only [count_append, count_nil] at *
    omega
  fifo := by
    refine List.Sublist.trans ?_ ok.fifo
    exact List.Sublist.append_left (nil_sublist l.events) (l.buffered ++ l.taken)

end Ok

end Ledger

end EmuCore.Lv2.EventQueue
