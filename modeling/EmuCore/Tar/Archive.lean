import EmuCore.Lib.Align
import EmuCore.Lib.SortedMap
import EmuCore.Util.Stream
import EmuCore.Vfs.Mount

namespace EmuCore.Tar

open EmuCore.Util

def headerSize : Nat := 512

def field (header : Bytes) (offset size : Nat) : Bytes := (header.drop offset).take size

def untilNul (text : Bytes) : Bytes := text.takeWhile (· ≠ 0)

def isOctal (c : UInt8) : Bool := decide (0x30 ≤ c) && decide (c ≤ 0x37)

-- The digits end in a NUL byte or a blank. Anything else is no number.
def octalTextToU64 (text : Bytes) : Option Nat :=
  let digits := text.takeWhile isOctal
  if digits = [] then none
  else
    match text.drop digits.length with
    | [] => none
    | c :: _ =>
      if c = 0 ∨ c = 0x20 then some (digits.foldl (fun n digit => 8 * n + (digit.toNat - 0x30)) 0) else none

structure Header where
  filename : Bytes
  filetype : UInt8
  size : Option Nat
  mtime : Option Nat
  isUstar : Bool

def readHeader (bytes : Bytes) : Header where
  filename := untilNul (field bytes 345 155) ++ untilNul (field bytes 0 100)
  filetype := bytes.getD 156 0
  size := octalTextToU64 (field bytes 124 12)
  mtime := octalTextToU64 (field bytes 136 12)
  isUstar := field bytes 257 5 = "ustar".toUTF8.toList

-- A header that is cut off by the end of the file reads as zeros.
def headerAt (file : Bytes) (offset : Nat) : Header :=
  readHeader ((read file offset headerSize).getD (List.replicate headerSize 0))

abbrev FileMap := SortedMap Bytes Header

-- The size is believed only as far as the file goes. It is skipped either way.
def emplaceSingleEntry (file : Bytes) (offset : Nat) (map : FileMap) : FileMap × Option Nat :=
  let header := headerAt file offset
  let offset := offset + headerSize
  if header.isUstar then
    match header.size with
    | none => (map, none)
    | some size =>
      if header.filename ≠ [] ∧ size ≤ file.length ∧ offset ≤ file.length - size then
        (map.insert header.filename header, some size)
      else (map, some size)
  else (map, none)

def scan (file : Bytes) (largestOffset : Nat) (map : FileMap) : FileMap :=
  if largestOffset < file.length then
    let entry := emplaceSingleEntry file largestOffset map
    scan file (largestOffset + headerSize + entry.2.elim 0 (Align.up 64 · 512)) entry.1
  else map
termination_by file.length - largestOffset
decreasing_by
  rw [headerSize]
  omega

-- What is done to the host for an entry, under the entry's host path: missing directories above it are made, the
-- file is written, the directory is made, the times are set.
inductive Action
  | parents (path : Bytes)
  | write (path : Bytes)
  | create (path : Bytes)
  | utime (path : Bytes)

def Action.path : Action -> Bytes
  | .parents path => path
  | .write path => path
  | .create path => path
  | .utime path => path

abbrev Outcome := List Action -> Action -> Bool

def perform (outcome : Outcome) (done : List Action) : List Action -> Bool × List Action
  | [] => (true, done)
  | action :: rest =>
    if outcome done action then perform outcome (done ++ [action]) rest else (false, done ++ [action])

-- Backwards compatibility: names with a full-width dollar sign are left alone.
def shouldIgnore (name : Bytes) : Bool := name.tails.any fun rest => [0xef, 0xbc, 0x84].isPrefixOf rest

def setTimes (header : Header) (result : Bytes) : List Action :=
  if header.mtime.isSome then [.utime result] else []

def entryActions (prefixPath name : Bytes) (header : Header) (result : Bytes) : Option (List Action) :=
  if header.filetype = 0 ∨ header.filetype = 0x30 then
    some ((if prefixPath ≠ [] then [.parents result] else []) ++
      if shouldIgnore name then [] else .write result :: setTimes header result)
  else if header.filetype = 0x35 then some (if shouldIgnore name then [] else .create result :: setTimes header result)
  else none

def target (host : Vfs.Host) (root : Vfs.Directory) (prefixPath : Bytes) (isVfs : Bool) (name : Bytes) : Option Bytes :=
  let result := prefixPath ++ Vfs.slash :: name
  if isVfs then
    let path := (Vfs.get host root result).path
    if path = [] then none else some path
  else if Vfs.isPathInsideDir result prefixPath then some result
  else none

def extractEntries (host : Vfs.Host) (root : Vfs.Directory) (prefixPath : Bytes) (isVfs : Bool) (outcome : Outcome)
    (done : List Action) : List (Bytes × Header) -> Bool × List Action
  | [] => (true, done)
  | (name, header) :: rest =>
    match (target host root prefixPath isVfs name).bind (entryActions prefixPath name header) with
    | none => (false, done)
    | some actions =>
      let performed := perform outcome done actions
      if performed.1 then extractEntries host root prefixPath isVfs outcome performed.2 rest else performed

def extract (host : Vfs.Host) (root : Vfs.Directory) (file prefixPath : Bytes) (isVfs : Bool) (outcome : Outcome) :
    Bool × List Action :=
  extractEntries host root prefixPath (prefixPath.isEmpty || isVfs) outcome [] (scan file 0 ∅).entries

def tarExtract : Bytes := "/tar_extract".toUTF8.toList

def extractTar (host : Vfs.Host) (root : Vfs.Directory) (file dirPath : Bytes) (outcome : Outcome) :
    Bool × List Action :=
  let mounted := Vfs.mount host root tarExtract dirPath true
  if mounted.1 then extract host mounted.2 file tarExtract true outcome else (false, [])

end EmuCore.Tar
