import EmuCore.Iso.Read
import EmuCore.Util.Stream
import EmuCore.Vfs.Mount

namespace EmuCore.Iso

structure Metadata where
  name : Bytes
  time : Int
  isDirectory : Bool
  hasMultipleExtents : Bool
  extents : List Extent
  nonempty : extents ≠ []

-- A directory spans its first extent only.
def Metadata.extent (metadata : Metadata) : Extent := metadata.extents.head metadata.nonempty

def Metadata.addExtent (metadata : Metadata) (extent : Extent) : Metadata :=
  { metadata with extents := metadata.extents ++ [extent], nonempty := by simp }

@[simp] lemma Metadata.extent_addExtent (metadata : Metadata) (extent : Extent) :
    (metadata.addExtent extent).extent = metadata.extent :=
  List.head_append_of_ne_nil metadata.nonempty

inductive Node
  | node (metadata : Metadata) (children : List Node)

-- Joliet descriptors hold names in big-endian UCS-2.
structure NameDecoding where
  namesInUcs2 : Bool
  utf16ToUtf8 : List Nat -> Bytes

variable (header : Bytes) (offset : Nat)

def byteAt : Nat := (header.getD offset 0).toNat

def retrieveEndianInt : Nat :=
  byteAt header offset + 256 * byteAt header (offset + 1) + 65536 * byteAt header (offset + 2) +
    16777216 * byteAt header (offset + 3)

lemma retrieveEndianInt_lt (header : Bytes) (offset : Nat) : retrieveEndianInt header offset < 2 ^ 32 := by
  have byte : ∀ offset, byteAt header offset < 256 := fun offset => UInt8.toNat_lt _
  have one := byte offset
  have two := byte (offset + 1)
  have three := byte (offset + 2)
  have four := byte (offset + 3)
  rw [retrieveEndianInt]
  omega

def sysDays (year month day : Nat) : Int :=
  let shifted := if month ≤ 2 then year - 1 else year
  let dayOfYear : Int := (153 * (if 2 < month then month - 3 else month + 9) + 2) / 5 + day - 1
  let yearOfEra := shifted % 400
  (shifted / 400 : Nat) * 146097 + (yearOfEra * 365 + yearOfEra / 4 - yearOfEra / 100 : Nat) + dayOfYear - 719468

-- The recorder's local time, less its offset from GMT in quarters of an hour.
def recordedTime (header : Bytes) : Int :=
  let offset : Int := if byteAt header 23 < 128 then byteAt header 23 else byteAt header 23 - 256
  sysDays (1900 + byteAt header 17) (byteAt header 18) (byteAt header 19) * 86400 + byteAt header 20 * 3600 +
    byteAt header 21 * 60 + byteAt header 22 - offset * 900

def bigEndianWords : Bytes -> List Nat
  | high :: low :: rest => (high.toNat * 256 + low.toNat) :: bigEndianWords rest
  | _ => []

def withoutVersion (name : Bytes) : Bytes :=
  if [0x3b, 0x31].isSuffixOf name then name.take (name.length - 2) else name

def withoutDot (name : Bytes) : Bytes :=
  if 1 < name.length ∧ name.getLast? = some Vfs.dot then name.dropLast else name

def fileName (decoding : NameDecoding) (name : Bytes) : Bytes :=
  withoutDot <| withoutVersion <|
    if name = [0] then Vfs.current
    else if name = [1] then Vfs.parent
    else if decoding.namesInUcs2 then decoding.utf16ToUtf8 (bigEndianWords name)
    else name

inductive Record
  | unreadable
  | padding
  | entry (metadata : Metadata) (length : Nat)

def headerSize : Nat := 32

def entryOf (decoding : NameDecoding) (header name : Bytes) : Metadata where
  name := fileName decoding name
  time := recordedTime header
  isDirectory := (byteAt header 24).testBit 1
  hasMultipleExtents := (byteAt header 24).testBit 7
  extents := [⟨retrieveEndianInt header 1, retrieveEndianInt header 9⟩]
  nonempty := by simp

def readDirectoryEntry (image : Bytes) (decoding : NameDecoding) (pos : Nat) : Record :=
  match image[pos]? with
  | none => .unreadable
  | some length =>
    if length = 0 then .padding
    else if length.toNat < 1 + headerSize then .unreadable
    else
      match Util.read image (pos + 1) headerSize with
      | none => .unreadable
      | some header =>
        let nameLength := byteAt header 31
        if length.toNat - 1 - headerSize < nameLength then .unreadable
        else
          match Util.read image (pos + 1 + headerSize) nameLength with
          | none => .unreadable
          | some name => .entry (entryOf decoding header name) length.toNat

lemma readDirectoryEntry_entry {image : Bytes} {decoding : NameDecoding} {pos length : Nat} {metadata : Metadata} :
    readDirectoryEntry image decoding pos = .entry metadata length ->
    1 + headerSize ≤ length ∧ ∃ header name, metadata = entryOf decoding header name := by
  fun_cases readDirectoryEntry image decoding pos with
  | case7 first _ _ long header _ _ _ name =>
    rintro ⟨⟩
    exact ⟨Nat.le_of_not_lt long, header, name, rfl⟩
  | _ => rintro ⟨⟩

structure Listing where
  children : List Metadata
  multiExtentNodeIndices : List Nat

def Listing.add (listing : Listing) (entry : Metadata) : Listing :=
  let named index := listing.children[index]?.any fun child => child.name = entry.name
  match listing.multiExtentNodeIndices.find? named with
  | some index => { listing with children := listing.children.modify index (·.addExtent entry.extent) }
  | none =>
    { children := listing.children ++ [entry]
      multiExtentNodeIndices :=
        listing.multiExtentNodeIndices ++ if entry.hasMultipleExtents then [listing.children.length] else [] }

-- The padding runs to the end of the sector that its first byte is followed in.
def nextSector (pos : Nat) : Nat := ((pos + 1) / sectorSize + 1) * sectorSize

lemma lt_nextSector (pos : Nat) : pos < nextSector pos := by
  have bounds : (pos + 1) % sectorSize < sectorSize := Nat.mod_lt _ (by decide)
  have parts := Nat.div_add_mod (pos + 1) sectorSize
  have product : nextSector pos = sectorSize * ((pos + 1) / sectorSize) + sectorSize := by
    rw [nextSector, mul_comm, Nat.mul_add_one]
  omega

def readEntries (image : Bytes) (decoding : NameDecoding) (endPos pos : Nat) (listing : Listing) :
    Option (List Metadata) :=
  if pos < endPos then
    match _found : readDirectoryEntry image decoding pos with
    | .unreadable => none
    | .padding => readEntries image decoding endPos (nextSector pos) listing
    | .entry metadata length =>
      if endPos < pos + length then none
      else readEntries image decoding endPos (pos + length) (listing.add metadata)
  else some listing.children
termination_by endPos - pos
decreasing_by
  · have forward := lt_nextSector pos
    omega
  · have long := (readDirectoryEntry_entry _found).1
    omega

def readDirectory (image : Bytes) (decoding : NameDecoding) (extent : Extent) : Option (List Metadata) :=
  let startPos := extent.start * sectorSize
  if image.length < startPos ∨ image.length - startPos < extent.size then none
  else readEntries image decoding (startPos + extent.size) startPos ⟨[], []⟩

def isDots (metadata : Metadata) : Bool := metadata.name = Vfs.current || metadata.name = Vfs.parent

def formChildren (form : Metadata -> Option (Option Node)) : List Metadata -> Option (Option (List Node))
  | [] => some (some [])
  | child :: rest =>
    if isDots child then (formChildren form rest).map (Option.map (.node child [] :: ·))
    else
      match form child with
      | none => none
      | some none => some none
      | some (some node) => (formChildren form rest).map (Option.map (node :: ·))

-- Fuel bounds how deep directories are opened inside each other. With none left there is no result.
def formHierarchy (image : Bytes) (decoding : NameDecoding) (fuel : Nat) (metadata : Metadata) (parentPath : Bytes) :
    Option (Option Node) :=
  if !metadata.isDirectory then some (if parentPath.isEmpty then none else some (.node metadata []))
  else
    let nodePath := parentPath ++ Vfs.slash :: metadata.name
    if !parentPath.isEmpty && !Vfs.isPathInsideDir nodePath parentPath then some none
    else
      match fuel with
      | 0 => none
      | fuel + 1 =>
        match readDirectory image decoding metadata.extent with
        | none => some none
        | some children =>
          (formChildren (fun child => formHierarchy image decoding fuel child nodePath) children).map
            (Option.map (.node metadata))

end EmuCore.Iso
