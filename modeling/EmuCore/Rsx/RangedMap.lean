import EmuCore.Lib.Transition
import EmuCore.Util.AddressRange

namespace EmuCore.Rsx

open AddressRange (Range)

/-- A size of blocks that divides the address space, so that every address has a block. -/
structure BlockSize where
  bytes : Nat
  positive : 0 < bytes
  divides : bytes ∣ 2 ^ 32

def BlockSize.blockFor (size : BlockSize) (address : BitVec 32) : Nat := address.toNat / size.bytes

-- The map keeps the value under the start address; the rest of the inserted range is for the proofs only.
structure RangedMap.Entry (V : Type) where
  range : Range 32
  value : V

def RangedMap.Entry.key {V : Type} (e : RangedMap.Entry V) : BitVec 32 := e.range.start

structure RangedMap (V : Type) where
  data : Nat -> List (RangedMap.Entry V)
  headBlock : Nat -> Nat

namespace RangedMap

variable {V : Type}

def empty : RangedMap V where
  data := fun _ => []
  headBlock := fun _ => 2 ^ 32 - 1

def broadcastInsert (size : BlockSize) (m : RangedMap V) (range : Range 32) : RangedMap V :=
  let headBlock := size.blockFor range.start
  let blocks := List.range' headBlock (size.blockFor range.last + 1 - headBlock)
  { m with
    headBlock := blocks.foldl
      (fun head block => Function.update head block (min headBlock (head block))) m.headBlock }

def insertOrAssign (block : List (Entry V)) (entry : Entry V) : List (Entry V) :=
  if ∃ e ∈ block, e.key = entry.key then block.map fun e => if e.key = entry.key then entry else e
  else block ++ [entry]

-- Insertion may reorder a hash table: `order` lists the old positions in their new order.
def reorder (block : List (Entry V)) (order : List Nat) : List (Entry V) :=
  order.filterMap fun position => block[position]?

variable (size : BlockSize) (m : RangedMap V)

def emplace (range : Range 32) (value : V) (order : List Nat) :
    RangedMap V :=
  let m := m.broadcastInsert size range
  let block := size.blockFor range.start
  { m with data := Function.update m.data block (reorder (insertOrAssign (m.data block) ⟨range, value⟩) order) }

def eraseAddress (address : BitVec 32) : RangedMap V :=
  let block := size.blockFor address
  { m with data := Function.update m.data block ((m.data block).filter fun e => e.key ≠ address) }

def clear (m : RangedMap V) : RangedMap V := { m with data := fun _ => [] }

structure Iterator where
  current : Option Nat
  last : Nat
  position : Nat

def Iterator.stop (last : Nat) : Iterator := ⟨none, last, 0⟩

def forwardScan (m : RangedMap V) (last : Nat) : Nat -> Nat -> Iterator
  | 0, _ => .stop last
  | fuel + 1, next =>
    if next ≤ last then
      if m.data next ≠ [] then ⟨some next, last, 0⟩ else forwardScan m last fuel (next + 1)
    else .stop last

def scanFrom (m : RangedMap V) (last next : Nat) : Iterator := m.forwardScan last (last + 1 - next) next

def beginRange (size : BlockSize) (m : RangedMap V) (range : Range 32) : Iterator :=
  let startBlock := size.blockFor range.start
  m.scanFrom (size.blockFor range.last) (min startBlock (m.headBlock startBlock))

variable (m : RangedMap V) (it : Iterator)

def next : Iterator :=
  match it.current with
  | none => it
  | some block =>
    if it.position + 1 ≠ (m.data block).length then { it with position := it.position + 1 }
    else m.scanFrom it.last (block + 1)

def entryAt : Option (Entry V) :=
  it.current.bind fun block => (m.data block)[it.position]?

def erase : RangedMap V × Iterator :=
  match it.current with
  | none => (m, it)
  | some block =>
    let rest := (m.data block).eraseIdx it.position
    let m := { m with data := Function.update m.data block rest }
    if it.position ≠ rest.length then (m, it) else (m, m.scanFrom it.last (block + 1))

/-- A loop up to `end()`. The visitor erases the current element or leaves it, as it likes. -/
def iterate (erases : List (Entry V) -> Entry V -> Bool) :
    Nat -> RangedMap V -> Iterator -> List (Entry V) -> Option (RangedMap V × List (Entry V))
  | fuel, m, it, visited =>
    if it.current = none then some (m, visited)
    else
      match fuel with
      | 0 => none
      | fuel + 1 =>
        match m.entryAt it with
        | none => none
        | some entry =>
          if erases visited entry then
            let (m, it) := m.erase it
            iterate erases fuel m it (visited ++ [entry])
          else iterate erases fuel m (m.next it) (visited ++ [entry])

inductive Action (V : Type)
  | emplace (range : Range 32) (value : V) (order : List Nat)
  | eraseAddress (address : BitVec 32)
  | eraseIterator (it : Iterator)
  | clear

def step (size : BlockSize) (m : RangedMap V) : Action V -> Option (RangedMap V)
  | .emplace range value order =>
    let block := m.data (size.blockFor range.start)
    if order.Perm (List.range (insertOrAssign block ⟨range, value⟩).length) then
      some (m.emplace size range value order)
    else none
  | .eraseAddress address => some (m.eraseAddress size address)
  | .eraseIterator it => if (m.entryAt it).isSome then some (m.erase it).1 else none
  | .clear => some m.clear

def system (V : Type) (size : BlockSize) : Transition.System (RangedMap V) (Action V) where
  init := fun m => m = empty
  step := step size

end RangedMap

end EmuCore.Rsx
