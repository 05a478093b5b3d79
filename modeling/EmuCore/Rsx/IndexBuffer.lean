import Mathlib.Tactic

namespace EmuCore.Rsx

inductive Primitive
  | points
  | lines
  | lineLoop
  | lineStrip
  | triangles
  | triangleStrip
  | triangleFan
  | quads
  | quadStrip
  | polygon
deriving DecidableEq, Repr

inductive IndexType
  | u16
  | u32
deriving DecidableEq, Repr

def IndexType.bytes : IndexType -> Nat
  | .u16 => 2
  | .u32 => 4

abbrev Index (t : IndexType) := BitVec (8 * t.bytes)

inductive Fault
  | outOfBounds
  | ensure
  | unknownMode
deriving DecidableEq, Repr

-- A destination of some length. Nothing is known of an element that was not written.
abbrev Dst (t : IndexType) := List (Option (Index t))

variable {t : IndexType}

def store (dst : Dst t) (i : Nat) (value : Index t) : Except Fault (Dst t) :=
  if i < dst.length then .ok (dst.set i (some value)) else .error .outOfBounds

def storeEach (dst : Dst t) (i : Nat) : List (Index t) -> Except Fault (Dst t)
  | [] => .ok dst
  | value :: rest => do
    let dst ← store dst i value
    storeEach dst (i + 1) rest

def indexLimit : Index t := BitVec.allOnes _

structure Bounds (t : IndexType) where
  min : Index t
  max : Index t
deriving DecidableEq

def Bounds.empty : Bounds t := ⟨indexLimit, 0⟩

def Bounds.minMax (b : Bounds t) (value : Index t) : Bounds t :=
  ⟨if value < b.min then value else b.min, if value > b.max then value else b.max⟩

def uploadUntouchedNaive (b : Bounds t) (dst : Dst t) (written : Nat) :
    List (Index t) -> Except Fault (Bounds t × Dst t)
  | [] => .ok (b, dst)
  | index :: rest => do
    let dst ← store dst written index
    uploadUntouchedNaive (b.minMax index) dst (written + 1) rest

def uploadRestartNaive (restart : Index t) (b : Bounds t) (dst : Dst t) (i : Nat) :
    List (Index t) -> Except Fault (Bounds t × Dst t)
  | [] => .ok (b, dst)
  | index :: rest => do
    if index = restart then
      let dst ← store dst i indexLimit
      uploadRestartNaive restart b dst (i + 1) rest
    else
      let dst ← store dst i index
      uploadRestartNaive restart (b.minMax index) dst (i + 1) rest

def uploadSkipRestart (restart : Index t) (b : Bounds t) (dst : Dst t) (written : Nat) :
    List (Index t) -> Except Fault (Bounds t × Nat × Dst t)
  | [] => .ok (b, written, dst)
  | index :: rest => do
    if index ≠ restart then
      let dst ← store dst written index
      uploadSkipRestart restart (b.minMax index) dst (written + 1) rest
    else uploadSkipRestart restart b dst written rest

def isPrimitiveNative : Primitive -> Bool
  | .points | .lines | .lineStrip | .triangles | .triangleStrip | .quadStrip => true
  | .lineLoop | .polygon | .triangleFan | .quads => false

def isPrimitiveDisjointed : Primitive -> Bool
  | .lineLoop | .lineStrip | .polygon | .quadStrip | .triangleFan | .triangleStrip => false
  | _ => true

def getIndexCount (mode : Primitive) (count : Nat) : Nat :=
  if isPrimitiveNative mode then count
  else
    match mode with
    | .lineLoop => (count + 1) % 2 ^ 32
    | .polygon | .triangleFan => (count + (2 ^ 32 - 2)) % 2 ^ 32 * 3 % 2 ^ 32
    | .quads => 6 * count % 2 ^ 32 / 4
    | _ => 0

def uploadUntouched (src : List (Index t)) (dst : Dst t) (mode : Primitive) (enabled : Bool)
    (restart : BitVec 32) : Except Fault (Bounds t × Nat × Dst t) :=
  let enabled := if t = .u16 ∧ restart.toNat > 0xffff then false else enabled
  if ¬enabled then do
    let (b, dst) ← uploadUntouchedNaive .empty dst 0 src
    .ok (b, src.length, dst)
  else if isPrimitiveDisjointed mode then uploadSkipRestart (restart.setWidth _) .empty dst 0 src
  else do
    let (b, dst) ← uploadRestartNaive (restart.setWidth _) .empty dst 0 src
    .ok (b, src.length, dst)

def isRestart (enabled : Bool) (restart : BitVec 32) (index : Index t) : Bool :=
  enabled && index.toNat == restart.toNat

structure Fan (t : IndexType) where
  dst : Dst t
  dstIdx : Nat
  needsAnchor : Bool
  anchor : Index t
  last : Index t
  bounds : Bounds t

def Fan.step (enabled : Bool) (restart : BitVec 32) (s : Fan t) (index : Index t) :
    Except Fault (Fan t) :=
  if s.needsAnchor then
    if isRestart enabled restart index then .ok s
    else .ok { s with anchor := index, bounds := s.bounds.minMax index, needsAnchor := false }
  else if isRestart enabled restart index then
    .ok { s with needsAnchor := true, last := indexLimit }
  else if s.last = indexLimit then .ok { s with last := index, bounds := s.bounds.minMax index }
  else do
    let dst ← storeEach s.dst s.dstIdx [s.anchor, s.last, index]
    .ok { s with dst := dst, dstIdx := s.dstIdx + 3, bounds := s.bounds.minMax index, last := index }

def expandIndexedTriangleFan (src : List (Index t)) (dst : Dst t) (enabled : Bool)
    (restart : BitVec 32) : Except Fault (Bounds t × Nat × Dst t) :=
  if dst.length ≥ 3 * ((src.length + (2 ^ 64 - 2)) % 2 ^ 64) % 2 ^ 64 then do
    let s ← src.foldlM (Fan.step enabled restart) ⟨dst, 0, true, indexLimit, indexLimit, .empty⟩
    .ok (s.bounds, s.dstIdx, s.dst)
  else .error .ensure

structure Quads (t : IndexType) where
  dst : Dst t
  dstIdx : Nat
  tmp : List (Index t)
  bounds : Bounds t

def Quads.step (enabled : Bool) (restart : BitVec 32) (s : Quads t) (index : Index t) :
    Except Fault (Quads t) :=
  if isRestart enabled restart index then .ok { s with tmp := [] }
  else
    let s := { s with tmp := s.tmp ++ [index], bounds := s.bounds.minMax index }
    match s.tmp with
    | [a, b, c, d] => do
      let dst ← storeEach s.dst s.dstIdx [a, b, c, c, d, a]
      .ok { s with dst := dst, dstIdx := s.dstIdx + 6, tmp := [] }
    | _ => .ok s

def expandIndexedQuads (src : List (Index t)) (dst : Dst t) (enabled : Bool) (restart : BitVec 32) :
    Except Fault (Bounds t × Nat × Dst t) :=
  if 4 * (dst.length * t.bytes) ≥ 6 * (src.length * t.bytes) then do
    let s ← src.foldlM (Quads.step enabled restart) ⟨dst, 0, [], .empty⟩
    .ok (s.bounds, s.dstIdx, s.dst)
  else .error .ensure

def writeIndexArrayDataToBuffer (dst : Dst t) (src : List (Index t)) (mode : Primitive)
    (enabled : Bool) (restart : BitVec 32) (expands : Primitive -> Bool) :
    Except Fault (Bounds t × Nat × Dst t) :=
  if ¬expands mode then uploadUntouched src dst mode enabled restart
  else
    match mode with
    | .lineLoop => do
      let (b, count, dst) ← uploadUntouched src dst mode enabled restart
      let indexCount := dst.length
      match src with
      | [] => .error .outOfBounds
      | first :: _ =>
        let dst ← store dst indexCount first
        .ok (b, count, dst)
    | .polygon | .triangleFan => expandIndexedTriangleFan src dst enabled restart
    | .quads => expandIndexedQuads src dst enabled restart
    | _ => .error .unknownMode

end EmuCore.Rsx
