import EmuCore.Lib.Align
import EmuCore.Lib.Transition

namespace EmuCore.Rsx

structure DataHeap where
  size : Nat
  putPos : Nat
  getPos : Nat
  minGuardSize : Nat
  name : String
deriving DecidableEq

inductive DataHeap.Failure
  | notBigEnough (name : String) (bufferLength requested guard : Nat)
  | ensure
deriving DecidableEq

namespace DataHeap

def canAllocImpl (h : DataHeap) (alignedPutPos alignedAllocSize : Nat) : Bool :=
  let allocEnd := (alignedPutPos + alignedAllocSize) % 2 ^ 64
  if allocEnd < h.size then
    if allocEnd < h.getPos then true
    else if alignedPutPos > h.getPos then true
    else false
  else if alignedPutPos < h.getPos then false
  -- what extends beyond the heap starts at 0
  else if alignedAllocSize > h.getPos then false
  else true

def grow (_ : Nat) : Bool := false

def init (heapSize : Nat) (bufferName : Option String) (minGuardSize : Nat) : DataHeap where
  size := heapSize
  putPos := 0
  getPos := (heapSize + (2 ^ 64 - 1)) % 2 ^ 64
  minGuardSize := minGuardSize
  name := bufferName.getD "<unnamed>"

variable (h : DataHeap)

def take (position length requested : Nat) : Except Failure (Nat × DataHeap) :=
  if !h.canAllocImpl position length && !grow length then
    .error (.notBigEnough h.name h.size requested h.minGuardSize)
  else
    let allocEnd := (position + length) % 2 ^ 64
    if allocEnd < h.size then .ok (position, { h with putPos := allocEnd })
    else .ok (0, { h with putPos := length })

def alloc (alignment size : Nat) : Except Failure (Nat × DataHeap) :=
  let allocSize := Align.up 64 size alignment
  let alignedPutPos := Align.up 64 h.putPos alignment
  h.take alignedPutPos allocSize size

def staticAlloc (alignment size : Nat) : Except Failure (Nat × DataHeap) :=
  if h.putPos &&& (alignment - 1) = 0 then h.take h.putPos size size
  else .error .ensure

def getCurrentPutPosMinusOne : Nat :=
  if h.putPos > 0 then h.putPos - 1 else (h.size + (2 ^ 64 - 1)) % 2 ^ 64

def setGetPos (value : Nat) : DataHeap := { h with getPos := value }

def resetAllocationStats : DataHeap := { h with getPos := h.getCurrentPutPosMinusOne }

def InUse (x : Nat) : Prop :=
  if h.getPos < h.putPos then h.getPos ≤ x ∧ x < h.putPos
  else x < h.size ∧ (h.getPos ≤ x ∨ x < h.putPos)

instance (h : DataHeap) (x : Nat) : Decidable (h.InUse x) :=
  inferInstanceAs (Decidable (if h.getPos < h.putPos then _ else _))

-- The alignments are template arguments of type `int`, given by their exponent.
inductive Request
  | alloc (bits size : Nat)
  | staticAlloc (bits size : Nat)
deriving DecidableEq

def Request.Valid : Request -> Prop
  | .alloc bits size => bits < 31 ∧ size < 2 ^ 64
  | .staticAlloc bits size => bits < 31 ∧ size < 2 ^ 64 ∧ 2 ^ bits ∣ size

instance : (r : Request) -> Decidable r.Valid
  | .alloc bits size => inferInstanceAs (Decidable (bits < 31 ∧ size < 2 ^ 64))
  | .staticAlloc bits size => inferInstanceAs (Decidable (bits < 31 ∧ size < 2 ^ 64 ∧ 2 ^ bits ∣ size))

def Request.size : Request -> Nat
  | .alloc _ size | .staticAlloc _ size => size

def Request.bits : Request -> Nat
  | .alloc bits _ | .staticAlloc bits _ => bits

def Request.serve (h : DataHeap) : Request -> Except Failure (Nat × DataHeap)
  | .alloc bits size => h.alloc (2 ^ bits) size
  | .staticAlloc bits size => h.staticAlloc (2 ^ bits) size

inductive Call
  | request (r : Request)
  | record
  | setGetPos (value : Nat)
  | resetAllocationStats

structure State where
  heap : DataHeap
  recorded : List Nat
deriving DecidableEq

def step (s : State) : Call -> Option State
  | .request r =>
    if r.Valid then
      match r.serve s.heap with
      | .ok (_, heap) => some { s with heap := heap }
      | .error _ => some s
    else none
  | .record => some { s with recorded := s.heap.getCurrentPutPosMinusOne :: s.recorded }
  | .setGetPos value =>
    if value ∈ s.recorded then some { s with heap := s.heap.setGetPos value } else none
  | .resetAllocationStats => some { s with heap := s.heap.resetAllocationStats }

def system : Transition.System State Call where
  init := fun s => ∃ heapSize < 2 ^ 64, ∃ bufferName minGuardSize,
    s = ⟨.init heapSize bufferName minGuardSize, []⟩
  step := step

end DataHeap

end EmuCore.Rsx
