import EmuCore.Lib.Drain
import EmuCore.Lib.LinkedList
import EmuCore.Lib.Transition

namespace EmuCore.Util.LockFree

open Function

variable {P A T : Type} [DecidableEq P] [DecidableEq A]

structure Memory (A T : Type) where
  link : A -> Option A
  data : A -> Option T

variable (memory : Memory A T) (item : A)

def Memory.create (link : Option A) (value : T) : Memory A T :=
  ⟨update memory.link item link, update memory.data item (some value)⟩

def Memory.setLink (link : Option A) : Memory A T :=
  { memory with link := update memory.link item link }

def Memory.free : Memory A T :=
  { memory with data := update memory.data item none }

-- In `push`: about to allocate, about to exchange, and after an exchange that failed.
inductive Producer (A T : Type)
  | idle
  | loaded (value : T) (oldv : Option A)
  | linked (value : T) (item : A) (oldv : Option A)
  | retrying (value : T) (item : A) (oldv : Option A)

inductive Pop
  | all
  | reversed
  | apply
  deriving DecidableEq

def Pop.newestFirst : Pop -> Bool
  | .reversed => true
  | _ => false

-- In `reverse`: before the exchange, after it, and in the loop. Then the slice is taken off from the front.
inductive Consumer (A T : Type)
  | idle
  | observed (pop : Pop)
  | detached (pop : Pop) (head : A)
  | reversing (pop : Pop) (head prev : A)
  | delivering (pop : Pop) (slice : Option A) (count : Nat) (elements : List T)

structure Applied (T : Type) where
  count : Nat
  elements : List T

structure State (P A T : Type) where
  memory : Memory A T
  head : Option A
  producers : P -> Producer A T
  consumer : Consumer A T
  events : List (Drain.Event T)
  applied : List (Applied T)

inductive Action (P A T : Type)
  | load (producer : P) (value : T)
  | allocate (producer : P) (item : A)
  | exchange (producer : P)
  | relink (producer : P)
  | pop (pop : Pop)
  | consume

variable (s : State P A T)

def State.setProducer (i : P) (producer : Producer A T) : State P A T :=
  { s with producers := update s.producers i producer }

def State.detach (pop : Pop) (consumer : Consumer A T) : State P A T :=
  { s with head := none, consumer, events := s.events ++ [.taken pop.newestFirst] }

def State.push (i : P) : Producer A T -> Option (State P A T)
  | .linked value item oldv =>
    if s.head = oldv then
      some { s.setProducer i .idle with
        head := some item, events := s.events ++ [.pushed value oldv.isNone] }
    else some (s.setProducer i (.retrying value item s.head))
  | _ => none

def State.finish (pop : Pop) (count : Nat) (elements : List T) : State P A T :=
  { s with
    consumer := .idle
    events := s.events ++ [.delivered pop.newestFirst elements]
    applied := if pop = .apply then s.applied ++ [⟨count, elements⟩] else s.applied }

def State.consume : Consumer A T -> Option (State P A T)
  | .idle => none
  | .observed pop => some (s.detach pop (s.head.elim (.delivering pop none 0 []) fun head => .detached pop head))
  | .detached pop head =>
    match s.memory.link head with
    | none => some { s with consumer := .delivering pop (some head) 0 [] }
    | some prev => some { s with memory := s.memory.setLink head none, consumer := .reversing pop head prev }
  | .reversing pop head prev =>
    let pprev := s.memory.link prev
    some { s with
      memory := s.memory.setLink prev (some head)
      consumer := pprev.elim (.delivering pop (some prev) 0 []) fun next => .reversing pop prev next }
  | .delivering pop (some item) count elements =>
    (s.memory.data item).map fun value =>
      { s with
        memory := s.memory.free item
        consumer := .delivering pop (s.memory.link item) count (elements ++ [value]) }
  | .delivering pop none count elements => some (s.finish pop count elements)

def step : Action P A T -> Option (State P A T)
  | .load i value =>
    match s.producers i with
    | .idle => some (s.setProducer i (.loaded value s.head))
    | _ => none
  | .allocate i item =>
    match s.producers i, s.memory.data item with
    | .loaded value oldv, none =>
      some { s.setProducer i (.linked value item oldv) with memory := s.memory.create item oldv value }
    | _, _ => none
  | .exchange i => s.push i (s.producers i)
  | .relink i =>
    match s.producers i with
    | .retrying value item oldv =>
      some { s.setProducer i (.linked value item oldv) with memory := s.memory.setLink item oldv }
    | _ => none
  | .pop pop =>
    match s.consumer with
    | .idle =>
      if pop.newestFirst then some (s.detach pop (.delivering pop s.head 0 []))
      else if s.head = none then some (s.detach pop (.delivering pop none 0 []))
      else some { s with consumer := .observed pop }
    | _ => none
  | .consume => s.consume s.consumer

def system (P A T : Type) [DecidableEq P] [DecidableEq A] : Transition.System (State P A T) (Action P A T) where
  init := fun s => s = ⟨⟨fun _ => none, fun _ => none⟩, none, fun _ => .idle, .idle, [], []⟩
  step := step

end EmuCore.Util.LockFree
