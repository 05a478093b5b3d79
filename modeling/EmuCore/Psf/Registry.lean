import EmuCore.Lib.Align
import EmuCore.Lib.LittleEndian
import EmuCore.Lib.SortedMap
import EmuCore.Util.Stream

namespace EmuCore.Psf

open EmuCore.Util

-- A string ends in a NUL byte that its maximum size counts. An array does not.
inductive Text
  | array
  | string
deriving DecidableEq

def Text.terminator : Text -> Nat
  | .array => 0
  | .string => 1

inductive Entry
  | text (format : Text) (maxSize : UInt32) (value : Bytes) (room : format.terminator < maxSize.toNat)
  | integer (value : UInt32)

def Text.code : Text -> Nat
  | .array => 0x0004
  | .string => 0x0204

def integerCode : Nat := 0x0404

def Entry.type : Entry -> Nat
  | .text format _ _ _ => format.code
  | .integer _ => integerCode

def Entry.max (withNts : Bool) : Entry -> Nat
  | .text format maxSize _ _ => maxSize.toNat - (if withNts then 0 else format.terminator)
  | .integer _ => 4

def narrow (n : Nat) : Option Nat := if n < 2 ^ 32 then some n else none

def Entry.size : Entry -> Option Nat
  | .text format maxSize value _ => (narrow (value.length + format.terminator)).map (min maxSize.toNat)
  | .integer _ => some 4

def Entry.isValid (entry : Entry) : Bool :=
  match entry with
  | .text _ _ value _ => value.length ≤ entry.max false
  | .integer _ => true

abbrev Registry := SortedMap Bytes Entry

def getString (psf : Registry) (key fallback : Bytes) : Bytes :=
  match psf.find? key with
  | some (.text _ _ value _) => value
  | _ => fallback

structure Header where
  magic : Nat
  version : Nat
  offKeyTable : Nat
  offDataTable : Nat
  entriesNum : Nat

def headerSize : Nat := 20

def magic : Nat := LittleEndian.decode [0x00, 0x50, 0x53, 0x46]

def version : Nat := 0x101

def Header.bytes (header : Header) : Bytes :=
  LittleEndian.record [(4, header.magic), (4, header.version), (4, header.offKeyTable), (4, header.offDataTable),
    (4, header.entriesNum)]

def Header.ofBytes (bytes : Bytes) : Header where
  magic := LittleEndian.decodeAt bytes 0 4
  version := LittleEndian.decodeAt bytes 4 4
  offKeyTable := LittleEndian.decodeAt bytes 8 4
  offDataTable := LittleEndian.decodeAt bytes 12 4
  entriesNum := LittleEndian.decodeAt bytes 16 4

structure DefTable where
  keyOff : Nat
  paramFmt : Nat
  paramLen : Nat
  paramMax : Nat
  dataOff : Nat

def defTableSize : Nat := 16

-- A key offset is cut to 16 bits.
def DefTable.bytes (index : DefTable) : Bytes :=
  LittleEndian.record [(2, index.keyOff), (2, index.paramFmt), (4, index.paramLen), (4, index.paramMax),
    (4, index.dataOff)]

def DefTable.ofBytes (bytes : Bytes) : DefTable where
  keyOff := LittleEndian.decodeAt bytes 0 2
  paramFmt := LittleEndian.decodeAt bytes 2 2
  paramLen := LittleEndian.decodeAt bytes 4 4
  paramMax := LittleEndian.decodeAt bytes 8 4
  dataOff := LittleEndian.decodeAt bytes 12 4

def indicesFrom (keyOffset dataOffset : Nat) : List (Bytes × Entry) -> Option (List DefTable × Nat)
  | [] => some ([], keyOffset)
  | (key, entry) :: rest => do
    let keyOff ← narrow keyOffset
    let paramLen ← entry.size
    let dataOff ← narrow dataOffset
    let keySize ← narrow (key.length + 1)
    let paramMax := entry.max true
    let (indices, keyEnd) ← indicesFrom (keyOffset + keySize) (dataOffset + paramMax) rest
    return ({ keyOff, paramFmt := entry.type, paramLen, paramMax, dataOff } :: indices, keyEnd)

variable (stream : Stream) (entry : Bytes × Entry)

def writeKey : Stream := (stream.write entry.1).write [0]

def writeData : Stream :=
  match entry.2 with
  | .integer value => stream.write (LittleEndian.encode 4 value.toNat)
  | .text _ _ value _ =>
    let value := if entry.2.isValid then value else value.take (entry.2.max false)
    ((stream.write value).seekCur (entry.2.max true - value.length)).trunc

def writeObject (psf : Registry) (header : Header) (indices : List DefTable) (init : Bytes) : Bytes :=
  let stream := ((Stream.mk init 0).write header.bytes).write (indices.flatMap DefTable.bytes)
  let stream := psf.entries.foldl writeKey stream
  let stream := psf.entries.foldl writeData (stream.seek header.offDataTable).trunc
  stream.obj

def saveObject (psf : Registry) (init : Bytes) : Option Bytes := do
  let (indices, keyOffset) ← indicesFrom 0 0 psf.entries
  let keyOffset := Align.up 64 keyOffset 4
  let offKeyTable ← narrow (headerSize + defTableSize * psf.entries.length)
  let offDataTable ← narrow (offKeyTable + keyOffset)
  let entriesNum ← narrow psf.entries.length
  return writeObject psf { magic, version, offKeyTable, offDataTable, entriesNum } indices init

-- The last one stands for a failed assertion on a new entry.
inductive Error
  | stream
  | notPsf
  | corrupt
  | fatal
deriving DecidableEq

def check (cond : Bool) (err : Error) : Except Error Unit := if cond then .ok () else .error err

def got {α : Type} (value : Option α) (err : Error) : Except Error α := value.elim (.error err) .ok

def untilNul (bytes : Bytes) : Bytes := bytes.takeWhile (· ≠ 0)

def Text.ofCode (code : Nat) : Option Text :=
  if code = Text.string.code then some .string
  else if code = Text.array.code then some .array
  else none

def loadText (format : Text) (maxSize : Nat) (value : Bytes) : Except Error Entry :=
  if room : format.terminator < (UInt32.ofNat maxSize).toNat then .ok (.text format (UInt32.ofNat maxSize) value room)
  else .error .fatal

-- An entry of an unknown format is ignored.
def loadData (stream : Bytes) (pos : Nat) (index : DefTable) : Except Error (Option Entry) :=
  if index.paramFmt = integerCode ∧ index.paramMax = 4 ∧ index.paramLen = 4 then do
    let value ← got (read stream pos 4) .corrupt
    return some (.integer (UInt32.ofNat (LittleEndian.decode value)))
  else
    match Text.ofCode index.paramFmt with
    | none => .ok none
    | some format => do
      let value ← got (read stream pos index.paramLen) .corrupt
      let value := if format = .string then untilNul value else value
      let entry ← loadText format index.paramMax value
      return some entry

def loadEntry (stream : Bytes) (header : Header) (keys : Bytes) (sfo : Registry) (index : DefTable) :
    Except Error Registry := do
  check (index.keyOff < header.offDataTable - header.offKeyTable) .corrupt
  let key := untilNul (keys.drop index.keyOff)
  check (sfo.find? key).isNone .corrupt
  check (index.paramLen ≤ index.paramMax) .corrupt
  check (index.dataOff < stream.length - header.offDataTable) .corrupt
  check (index.paramMax < stream.length - index.dataOff) .corrupt
  let entry ← loadData stream ((header.offDataTable + index.dataOff) % 2 ^ 32) index
  return entry.elim sfo (sfo.insert key)

def indicesOf : Nat -> Bytes -> List DefTable
  | 0, _ => []
  | count + 1, table => .ofBytes (table.take defTableSize) :: indicesOf count (table.drop defTableSize)

def category : Bytes := "CATEGORY".toUTF8.toList

def validCats : List Bytes :=
  ["GD", "DG", "HG", "AM", "AP", "AS", "AT", "AV", "BV", "WT", "HM", "CB", "SF", "2P", "2G", "1P", "PP", "MN", "PE",
    "2D", "SD", "MS"].map fun cat => cat.toUTF8.toList

def load (file : Option Bytes) : Except Error Registry := do
  let stream ← got file .stream
  let bytes ← got (read stream 0 headerSize) .notPsf
  let header := Header.ofBytes bytes
  check (header.magic = magic) .notPsf
  check (header.version = version) .notPsf
  check (headerSize ≤ header.offKeyTable) .corrupt
  check (header.offKeyTable ≤ header.offDataTable) .corrupt
  check (header.offDataTable ≤ stream.length) .corrupt
  let table ← got (read stream headerSize (defTableSize * header.entriesNum)) .corrupt
  let keys ← got (read stream header.offKeyTable (header.offDataTable - header.offKeyTable)) .corrupt
  let sfo ← (indicesOf header.entriesNum table).foldlM (loadEntry stream header keys) ∅
  check (validCats.contains (getString sfo category [])) .corrupt
  return sfo

end EmuCore.Psf
