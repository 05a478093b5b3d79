import EmuCore.Lib.Slice

namespace EmuCore.Pkg

open Slice

abbrev Buffer := Nat -> UInt8

def umax : Nat := 2 ^ 64 - 1

def bufSize : Nat := 8192 * 1024

def bufPadding : Nat := 32

structure Entry where
  fileOffset : Nat
  fileSize : Nat
  fits : fileOffset + fileSize ≤ umax

structure Package where
  isValid : Bool
  size : Nat
  byte : Buffer
  dataOffset : Nat
  keyStream : Nat -> Nat -> UInt8

def readBlock (p : Package) (offset : Nat) (dst : Buffer) (numBytes : Nat) : Nat × Buffer :=
  let readN := min numBytes (p.size - offset)
  (readN, fun i => if i < readN then p.byte (offset + i) else dst i)

def clear (buf : Buffer) (first last : Nat) : Buffer := fun i => if first ≤ i ∧ i < last then 0 else buf i

def applyKeys (p : Package) (first blocks : Nat) (buf : Buffer) : Buffer := fun i =>
  if i < blocks * 16 then buf i ^^^ p.keyStream (first + i / 16) (i % 16) else buf i

-- None for a check that fails. The last block may reach over the end of the buffer: then the check fails after it
-- was written.
def decrypt (p : Package) (offset size : Nat) (localBuf : Buffer) (localSize : Nat) : Option (Nat × Buffer) :=
  if !p.isValid then some (0, localBuf)
  else if umax - offset < p.dataOffset then some (0, localBuf)
  else if localSize < size then none
  else
    let data := readBlock p (p.dataOffset + offset) localBuf size
    let cleared := clear data.2 data.1 localSize
    let blocks := (data.1 + 15) / 16
    let readSize := blocks * 16
    let plain := applyKeys p (offset / 16) blocks cleared
    if size < readSize then
      if localSize < readSize then none
      else some (min size data.1, clear plain size readSize)
    else some (min size data.1, plain)

structure Request where
  pos : Nat
  size : Nat
  own : Bool
  ptr : Buffer

structure Cache where
  off : Nat
  size : Nat
  data : Buffer

def Cache.empty : Cache := ⟨umax, 0, fun _ => 0⟩

def ownSize (e : Entry) : Nat := min e.fileSize (1 <<< 24) + bufPadding

def copy (dst : Buffer) (start count : Nat) (src : Buffer) : Buffer := fun i =>
  if start ≤ i ∧ i < start + count then src (i - start) else dst i

def readLoop (p : Package) (e : Entry) (req : Request) (size : Nat) :
    Nat -> Nat -> Nat -> Buffer -> Option (Nat × Buffer)
  | 0, readSize, _, buf => some (readSize, buf)
  | fuel + 1, readSize, pos, buf =>
    if size ≤ readSize then some (readSize, buf)
    else
      let blockSize := min bufSize (size - readSize)
      let available := (if req.own then ownSize e else req.size) - readSize
      if req.own ∧ ownSize e ≠ req.size + bufPadding then none
      else if available < blockSize then none
      else
        (decrypt p (e.fileOffset + pos) blockSize (fun i => buf (readSize + i)) available).bind fun done =>
          let written := fun i => if readSize ≤ i then done.2 (i - readSize) else buf i
          if done.1 = 0 then some (readSize, written)
          else readLoop p e req size fuel (readSize + done.1) (pos + done.1) written

variable (p : Package) (e : Entry) (cache : Cache) (req : Request)

def refill (size : Nat) :
    Option (Nat × Buffer × Cache) :=
  let blockSize := min bufSize (min (max (size * 5 / 3) 65536) (e.fileSize - req.pos))
  (decrypt p (e.fileOffset + req.pos) blockSize cache.data (blockSize + bufPadding)).bind fun done =>
    if done.1 = 0 then some (0, req.ptr, ⟨umax, blockSize + bufPadding, done.2⟩)
    else
      let size := min done.1 size
      some (size, copy req.ptr 0 size done.2, ⟨req.pos, done.1, done.2⟩)

def read : Option (Nat × Buffer × Cache) :=
  if e.fileSize ≤ req.pos ∨ req.size = 0 then some (0, req.ptr, cache)
  else
    let size := min (e.fileSize - req.pos) req.size
    if cache.size ≠ 0 ∧ cache.off ≤ req.pos ∧ req.pos < cache.off + cache.size then
      let readSize := min (req.pos + size) (cache.off + cache.size) - req.pos
      let ptr := copy req.ptr 0 readSize fun i => cache.data (req.pos - cache.off + i)
      if e.fileSize ≤ req.pos + readSize then some (readSize, ptr, cache)
      else
        (readLoop p e req size size readSize (req.pos + readSize) ptr).map fun done => (done.1, done.2, cache)
    else if cache.size ≠ 0 ∧ cache.off < req.pos + size ∧ req.pos + size ≤ cache.off + cache.size then
      let sizeCacheEnd := size - (max cache.off req.pos - req.pos)
      let ptr := copy req.ptr (cache.off - req.pos) sizeCacheEnd cache.data
      if size - sizeCacheEnd = 0 then some (sizeCacheEnd, ptr, cache)
      else
        (readLoop p e req (size - sizeCacheEnd) size 0 req.pos ptr).map fun done =>
          (done.1 + sizeCacheEnd, done.2, cache)
    else if size ≤ bufSize then refill p e cache req size
    else (readLoop p e req size size 0 req.pos req.ptr).map fun done => (done.1, done.2, cache)

def answers (p : Package) (e : Entry) : Cache -> List Request -> Option (List (List UInt8))
  | _, [] => some []
  | cache, req :: rest =>
    (read p e cache req).bind fun done => (answers p e done.2.2 rest).map (slice done.2.1 0 done.1 :: ·)

end EmuCore.Pkg
