import EmuCore.Lib.Slice

namespace EmuCore.Iso

abbrev Bytes := List UInt8

abbrev Buffer := Nat -> UInt8

def sectorSize : Nat := 2048

def rawReadSize : Nat := sectorSize * 512

lemma rawReadSize_pos : 0 < rawReadSize := Nat.mul_pos (Nat.succ_pos 2047) (Nat.succ_pos 511)

def u32 (n : Nat) : Nat := n % 2 ^ 32

def u64 (n : Nat) : Nat := n % 2 ^ 64

structure Extent where
  start : Nat
  size : Nat
deriving DecidableEq

structure Member where
  extents : List Extent
  nonempty : extents ≠ []
  addressed : ∀ extent ∈ extents, extent.start * sectorSize + extent.size < 2 ^ 63
  counted : (extents.map (·.size)).sum < 2 ^ 64

structure DirectoryMember extends Member where
  recorded : ∀ extent ∈ extents, extent.start < 2 ^ 32 ∧ extent.size < 2 ^ 32

def Member.size (member : Member) : Nat := u64 (member.extents.map (·.size)).sum

def getExtentPos : List Extent -> Nat -> Nat × Extent
  | [], pos => (pos, ⟨0, 0⟩)
  | [last], pos => (pos, last)
  | extent :: next :: rest, pos =>
    if extent.size ≤ pos then getExtentPos (next :: rest) (pos - extent.size) else (pos, extent)

def localExtentRemaining (member : Member) (pos : Nat) : Nat :=
  let place := getExtentPos member.extents pos
  place.2.size - place.1

def fileOffset (member : Member) (pos : Nat) : Nat :=
  let place := getExtentPos member.extents pos
  u64 (u64 (place.2.start * sectorSize) + place.1)

-- A read of the image came up short, or memory outside the buffer was written.
inductive Failure
  | short
  | undefined
deriving DecidableEq

abbrev Source := Nat -> Nat -> Bytes

def readFile (source : Source) (address size : Nat) : Except Failure Bytes :=
  if (source address size).length = size then .ok (source address size) else .error .short

abbrev ExtentReader := Nat -> Nat -> Buffer -> Nat -> Except Failure Buffer

def readAt (readExtent : ExtentReader) (member : Member) (offset size : Nat) (buffer : Buffer) (pos : Nat) :
    Except Failure (Nat × Buffer) :=
  let maxSize := min size (localExtentRemaining member offset)
  if maxSize = 0 then .ok (0, buffer)
  else
    match readExtent (fileOffset member offset) maxSize buffer pos with
    | .error .short => .ok (0, buffer)
    | .error .undefined => .error .undefined
    | .ok filled =>
      if maxSize < size ∧ u64 (offset + maxSize) < member.size then
        (readAt readExtent member (offset + maxSize) (size - maxSize) filled (pos + maxSize)).map fun more =>
          (maxSize + more.1, more.2)
      else .ok (maxSize, filled)
termination_by size
decreasing_by all_goals omega

structure Sectors where
  lba : Nat
  offset : Nat
  firstSize : Nat
  lastLba : Nat
  lastSize : Nat

def sectorsOf (address maxSize : Nat) : Sectors :=
  let last := u64 (address + maxSize - 1)
  let offset := address % sectorSize
  { lba := address / sectorSize * sectorSize
    offset := offset
    firstSize := if offset + maxSize ≤ sectorSize then maxSize else sectorSize - offset
    lastLba := last / sectorSize * sectorSize
    lastSize := last % sectorSize + 1 }

def Sectors.count (sectors : Sectors) : Nat := (sectors.lastLba - sectors.lba) / sectorSize + 1

abbrev Decrypt := Nat -> Bytes -> Except Failure Bytes

def readDecrypted (source : Source) (decrypt : Decrypt) (address size : Nat) : Except Failure Bytes :=
  (readFile source address size).bind (decrypt address)

def rawInner (source : Source) (decrypt : Decrypt) (address size : Nat) (buffer : Buffer) (pos : Nat) :
    Except Failure Buffer :=
  if size = 0 then .ok buffer
  else
    let blockSize := min size rawReadSize
    (readDecrypted source decrypt address blockSize).bind fun block =>
      rawInner source decrypt (address + blockSize) (size - blockSize) (Slice.put buffer pos block)
        (pos + blockSize)
termination_by size
decreasing_by
  have := rawReadSize_pos
  omega

def rawExtent (source : Source) (decrypt : Decrypt) : ExtentReader := fun address maxSize buffer pos =>
  let sectors := sectorsOf address maxSize
  (readDecrypted source decrypt sectors.lba sectorSize).bind fun first =>
    let buffer := Slice.put buffer pos ((first.drop sectors.offset).take sectors.firstSize)
    if sectors.count < 2 then .ok buffer
    else
      (rawInner source decrypt (sectors.lba + sectorSize) ((sectors.count - 2) * sectorSize) buffer
          (pos + sectors.firstSize)).bind fun buffer =>
        (readDecrypted source decrypt sectors.lastLba sectorSize).bind fun last =>
          .ok (Slice.put buffer (pos + (maxSize - sectors.lastSize)) (last.take sectors.lastSize))

def plainExtent (raw : Bool) (source : Source) : ExtentReader := fun address maxSize buffer pos =>
  if raw then rawExtent source (fun _ bytes => .ok bytes) address maxSize buffer pos
  else (readFile source address maxSize).map (Slice.put buffer pos)

abbrev Cipher := Bytes -> Bytes -> Nat -> UInt8

def decryptBlock (cipher : Cipher) (previous block : Bytes) : Bytes := (List.range 16).map (cipher previous block)

def cbcBlocks (cipher : Cipher) : Nat -> Bytes -> Bytes -> Bytes
  | 0, _, _ => []
  | count + 1, iv, input =>
    decryptBlock cipher iv (input.take 16) ++ cbcBlocks cipher count (input.take 16) (input.drop 16)

def aesCryptCbc (cipher : Cipher) (iv input : Bytes) : Bytes :=
  if input.length % 16 = 0 then cbcBlocks cipher (input.length / 16) iv input else input

def resetIv (lba : Nat) : Bytes :=
  List.replicate 12 0 ++ [UInt8.ofNat (lba / 2 ^ 24), UInt8.ofNat (lba / 2 ^ 16), UInt8.ofNat (lba / 2 ^ 8),
    UInt8.ofNat lba]

def decryptRest (cipher : Cipher) : Nat -> Nat -> Bytes -> Bytes
  | 0, lba, bytes => aesCryptCbc cipher (resetIv (u32 (lba + 1))) bytes
  | inner + 1, lba, bytes =>
    aesCryptCbc cipher (resetIv (u32 (lba + 1))) (bytes.take sectorSize) ++
      decryptRest cipher inner (u32 (lba + 1)) (bytes.drop sectorSize)

def decryptData (cipher : Cipher) (offset : Nat) (bytes : Bytes) : Bytes :=
  let size := bytes.length
  let lba := u32 (offset / sectorSize)
  let sectorCount := u32 (u32 ((offset + size - 1) / sectorSize) + (2 ^ 32 - lba) + 1)
  let sectorOffset := offset % sectorSize
  let iv := if sectorOffset ≠ 0 then bytes.take 16 else resetIv lba
  let curOffset := if sectorOffset ≠ 0 then 16 else 0
  let curSize := (if sectorOffset + size ≤ sectorSize then size else sectorSize - sectorOffset) - curOffset
  let first := bytes.take curOffset ++ aesCryptCbc cipher iv ((bytes.drop curOffset).take curSize)
  let rest := bytes.drop (curOffset + curSize)
  if sectorCount < 2 then first ++ rest else first ++ decryptRest cipher (sectorCount - 2) lba rest

inductive EncryptionType
  | none
  | dec3k3y
  | enc3k3y
  | redump
deriving DecidableEq

def EncryptionType.is3k3y : EncryptionType -> Bool
  | .dec3k3y | .enc3k3y => true
  | .none | .redump => false

def EncryptionType.isEncrypted : EncryptionType -> Bool
  | .enc3k3y | .redump => true
  | .none | .dec3k3y => false

structure RegionInfo where
  encrypted : Bool
  firstAddr : Nat
  lastAddr : Nat

def findRegion (regions : List RegionInfo) (address : Nat) : Option RegionInfo :=
  regions.find? fun info => info.firstAddr ≤ address && address ≤ info.lastAddr

def rangeStart : Nat := 0xF70

def rangeEnd : Nat := 0x1070

-- The end that is zeroed up to counts from the start of the buffer, even where the range starts further on.
-- Nothing is said of bytes outside the buffer.
def zeroRange (offset : Nat) (bytes : Bytes) : Except Failure Bytes :=
  let bufferEnd := offset + bytes.length
  if rangeStart < bufferEnd ∧ offset < rangeEnd then
    let overlapStart := if offset < rangeStart then rangeStart - offset else 0
    let overlapEnd := if bufferEnd < rangeEnd then bytes.length else rangeEnd - rangeStart
    if overlapEnd < overlapStart ∨ bytes.length < overlapEnd then .error .undefined
    else .ok (bytes.mapIdx fun i b => if overlapStart ≤ i ∧ i < overlapEnd then 0 else b)
  else .ok bytes

def decrypt (type : EncryptionType) (regions : List RegionInfo) (cipher : Cipher) : Decrypt := fun offset bytes =>
  (if type.is3k3y then zeroRange offset bytes else .ok bytes).map fun bytes =>
    if type.isEncrypted && ((findRegion regions offset).map (·.encrypted)).getD false then
      decryptData cipher offset bytes
    else bytes

def down16 (n : Nat) : Nat := n / 16 * 16

def up16 (n : Nat) : Nat := if down16 n ≠ n then down16 n + 16 else down16 n

def blockExtent (source : Source) (decrypt : Decrypt) : ExtentReader := fun address maxSize buffer pos =>
  let sectors := sectorsOf address maxSize
  let offsetAligned := if down16 sectors.offset ≠ 0 then down16 sectors.offset - 16 else 0
  let sizeAligned := up16 (sectors.offset + sectors.firstSize) - offsetAligned
  (readDecrypted source decrypt (sectors.lba + offsetAligned) sizeAligned).bind fun first =>
    let buffer :=
      Slice.put buffer pos ((first.drop (sectors.offset - offsetAligned)).take sectors.firstSize)
    if sectors.count < 2 then .ok buffer
    else
      let innerSize := (sectors.count - 2) * sectorSize
      (if 2 < sectors.count then
          (readDecrypted source decrypt (sectors.lba + sectorSize) innerSize).map
            (Slice.put buffer (pos + sectors.firstSize))
        else .ok buffer).bind fun buffer =>
        (readDecrypted source decrypt sectors.lastLba (up16 sectors.lastSize)).bind fun last =>
          .ok (Slice.put buffer (pos + (maxSize - sectors.lastSize)) (last.take sectors.lastSize))

def encryptedExtent (raw : Bool) (source : Source) (decrypt : Decrypt) : ExtentReader :=
  if raw then rawExtent source decrypt else blockExtent source decrypt

end EmuCore.Iso
