import EmuCore.Lib.BitField
import EmuCore.Lib.Transition

namespace EmuCore.Idm

abbrev Id := BitVec 32

def umax : Id := BitVec.allOnes 32

/-- The types that share one table, each with its own base. -/
structure Family (τ : Type) where
  step : Id
  count : Nat
  first : Nat
  bits : Nat
  base : τ -> Id
  typeId : τ -> Id
  lowest : τ -> Bool
  isTable : τ -> Bool
  stepPos : 0 < step.toNat
  fits : ∀ t, step.toNat * (count - 1) + (base t).toNat < 2 ^ 32
  range : first + bits ≤ 32
  bitsLess : bits < 32
  clear : ∀ t i, i < count -> BitField.extract (base t + step * BitVec.ofNat 32 i) first bits = 0
  apart : ∀ t u i j, i < count -> j < count ->
    base t + step * BitVec.ofNat 32 i = base u + step * BitVec.ofNat 32 j -> i = j
  typed : ∀ t u, typeId t = typeId u -> base t = base u
  untyped : ∀ t u, isTable t = true -> base u = base t
  proper : ∀ t, typeId t ≠ umax

structure Key where
  value : Id
  type : Id

def Key.free (key : Key) : Bool := key.type = umax

def Key.empty : Key := ⟨0, umax⟩

def Key.clear (key : Key) : Key := { key with type := umax }

structure Object (τ O : Type) where
  type : τ
  id : Id
  object : O

inductive Event
  | issued (index : Nat) (id : Id)
  | failed (index : Nat) (before : Id)
  | imported (index : Nat)

structure Map (τ O : Type) where
  keys : Nat -> Key
  data : Nat -> Option (Object τ O)
  highestIndex : Nat
  log : List Event

variable {τ O : Type} (family : Family τ)

def Family.mask : Id := ((1 : Id) <<< family.bits - 1) <<< family.first

def Family.invalid (t : τ) : Id := if family.base t = 0 then umax else 0

def Family.slotId (t : τ) (i : Nat) : Id := family.base t + family.step * BitVec.ofNat 32 i

def Family.getIndex (t : τ) (id : Id) : Nat :=
  let diff := (id &&& ~~~family.mask) - family.base t
  if diff % family.step ≠ 0 then family.count else (diff / family.step).toNat

def Family.nextId (t : τ) (i : Nat) (value : Id) : Id :=
  family.slotId t i ||| ((value + (1 : Id) <<< family.first) &&& (if family.bits ≠ 0 then family.mask else 0#32))

variable (s : Map τ O)

def Map.setKey (i : Nat) (key : Key) : Map τ O := { s with keys := Function.update s.keys i key }

def allocateId (t : τ) (dstId : Id) : Option (Map τ O × Option Nat) :=
  if dstId ≠ family.invalid t then
    let index := family.getIndex t dstId
    if index < family.count then
      let s := { s with highestIndex := max s.highestIndex (index + 1) }
      if (s.keys index).free then
        some ({ s.setKey index ⟨dstId, family.typeId t⟩ with log := s.log ++ [.imported index] }, some index)
      else some (s, none)
    else none
  else if family.lowest t = false ∧ s.highestIndex < family.count then
    let index := s.highestIndex
    some ({ s.setKey index ⟨family.slotId t index, family.typeId t⟩ with highestIndex := index + 1 }, some index)
  else
    let s := if family.lowest t then { s with highestIndex := family.count } else s
    match (List.range family.count).find? fun i => (s.keys i).free with
    | some i => some (s.setKey i ⟨family.nextId t i (s.keys i).value, family.typeId t⟩, some i)
    | none => some (s, none)

def createId (t : τ) (provider : Option O) (dstId : Id) : Option (Map τ O) :=
  (allocateId family s t dstId).map fun allocated =>
    match allocated.2, provider with
    | some index, some object =>
      let id := (allocated.1.keys index).value
      { allocated.1 with
        data := Function.update allocated.1.data index (some ⟨t, id, object⟩)
        log := allocated.1.log ++ [.issued index id] }
    | some index, none =>
      { allocated.1.setKey index .empty with log := allocated.1.log ++ [.failed index (s.keys index).value] }
    | none, _ => allocated.1

def findIndex (t : τ) (index : Nat) (id : Id) : Option (Object τ O) :=
  if s.highestIndex ≤ index then none
  else (s.data index).filter fun _ =>
    (family.isTable t || (s.keys index).type == family.typeId t) &&
      (family.bits == 0 || (s.keys index).value == id)

def findId (t : τ) (id : Id) : Option (Object τ O) := findIndex family s t (family.getIndex t id) id

def remove (t : τ) (id : Id) : Map τ O :=
  let index := family.getIndex t id
  if family.count ≤ index then s
  else if (findIndex family s t index id).isSome then
    { s.setKey index (s.keys index).clear with data := Function.update s.data index none }
  else s

inductive Action (τ O : Type)
  | create (type : τ) (provider : Option O) (dstId : Id)
  | remove (type : τ) (id : Id)

def perform (s : Map τ O) : Action τ O -> Option (Map τ O)
  | .create t provider dstId => createId family s t provider dstId
  | .remove t id => some (remove family s t id)

def system (O : Type) : Transition.System (Map τ O) (Action τ O) where
  init := fun s => s = ⟨fun _ => .empty, fun _ => none, 0, []⟩
  step := perform family

def Event.idOf (index : Nat) : Event -> Option Id
  | .issued i id => if i = index then some id else none
  | _ => none

def Map.ids (s : Map τ O) (index : Nat) : List Id := s.log.filterMap (Event.idOf index)

end EmuCore.Idm
