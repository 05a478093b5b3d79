import EmuCore.Lib.Overlay
import EmuCore.Util.AddressRange

namespace EmuCore.Rsx.Mm

open EmuCore.AddressRange

inductive Protection
  | rw
  | ro
  | no
  | wx
  | rx
  deriving DecidableEq

def Protection.toByte : Protection -> UInt8
  | .rw => 0
  | .ro => 1
  | .no => 2
  | .wx => 3
  | .rx => 4

def guestSize : Nat := 2 ^ 32

def guestPage : Nat := 4096

structure Host where
  pageSize : Nat
  guestBase : Nat
  pages : guestPage ∣ pageSize
  aligned : pageSize ∣ guestBase
  fits : guestBase + guestSize < 2 ^ 64

abbrev Address := BitVec 64

def startLength (start length : Address) : Range 64 :=
  if length = 0 then .invalidated else ⟨start, start + length - 1⟩

def length (range : Range 64) : Address := range.last - range.start + 1

def inside (range other : Range 64) : Bool := decide (other.start ≤ range.start) && decide (range.last ≤ other.last)

structure Block where
  range : Range 64
  prot : Protection
  syncTag : Nat

def Block.merge (block : Block) (other : Range 64) : Block :=
  { block with range := ⟨smaller block.range.start other.start, larger block.range.last other.last⟩ }

def Block.invalidate (block : Block) : Block := { block with range := .invalidated }

structure State where
  pages : Nat -> Protection
  mirror : Nat -> UInt8
  queue : List Block

variable (host : Host)

def memoryProtect (start length : Address) (prot : Protection) (pages : Nat -> Protection) : Nat -> Protection :=
  fun page =>
    if start.toNat / host.pageSize ≤ page ∧ page * host.pageSize < start.toNat + length.toNat then prot else pages page

def mmTrackProtection (start length : Address) (prot : Protection) (mirror : Nat -> UInt8) : Nat -> UInt8 :=
  if length = 0 then mirror
  else if start.toNat < host.guestBase ∨ host.guestBase + guestSize ≤ start.toNat then mirror
  else
    let first := (start.toNat - host.guestBase) / guestPage
    let finish := min (start.toNat - host.guestBase + length.toNat) guestSize
    let last := (finish - 1) / guestPage
    fun page => if first ≤ page ∧ page ≤ last then prot.toByte else mirror page

def mmIsAccessible (s : State) (vmAddress : BitVec 32) (isWriting : Bool) : Bool :=
  let prot := s.mirror (vmAddress.toNat / guestPage)
  if isWriting then prot = Protection.rw.toByte else prot ≠ Protection.no.toByte

def State.protect (s : State) (start length : Address) (prot : Protection) : State :=
  { s with
    pages := memoryProtect host start length prot s.pages
    mirror := mmTrackProtection host start length prot s.mirror }

def mmSanitizeQueue (queue : List Block) : List Block := queue.filter (·.range.valid)

def mmFlushMprotectQueue (s : State) (count : Nat) : Option State :=
  let flushed := s.queue.take count
  if flushed.all (·.range.valid) then
    let done := flushed.foldl (fun s block => s.protect host block.range.start (length block.range) block.prot) s
    let remaining := s.queue.length - count
    some { done with
      queue := if remaining = 0 then [] else mmSanitizeQueue (flushed.map Block.invalidate ++ s.queue.drop count) }
  else none

-- The scan goes from the newest block to the oldest. The result is a count of prefix blocks.
def mmFindConflict (predicate : Block -> Bool) (queue : List Block) : Nat :=
  (queue.reverse.dropWhile fun block => !predicate block).length

structure Scan where
  blocks : List Block
  hasInvalid : Bool
  isMerged : Bool

def Scan.keep (block : Block) (scan : Scan) : Scan := { scan with blocks := block :: scan.blocks }

def mmMerge (range : Range 64) (prot : Protection) : List Block -> Scan
  | [] => ⟨[], false, false⟩
  | block :: older =>
    if !block.range.touches range then (mmMerge range prot older).keep block
    else if block.prot ≠ prot then
      if inside block.range range then { (mmMerge range prot older).keep block.invalidate with hasInvalid := true }
      else if !block.range.overlaps range then (mmMerge range prot older).keep block
      else ⟨block :: older, false, false⟩
    else ⟨block.merge range :: older, false, true⟩

def mmDeferMprotect (queue : List Block) (start length : Address) (prot : Protection) (tag : Nat) : List Block :=
  let range := startLength start length
  let scan := mmMerge range prot queue.reverse
  let scanned := scan.blocks.reverse
  let sanitized := if scan.hasInvalid then mmSanitizeQueue scanned else scanned
  if scan.isMerged then sanitized else sanitized ++ [⟨range, prot, tag⟩]

def unlockCounts (queue : List Block) (range : Range 64) : Nat × Nat :=
  let count := mmFindConflict (·.range.overlaps range) queue
  let crushed := ((queue.take count).reverse.takeWhile fun block => inside block.range range).length
  (count - crushed, count)

def mmUnlock (s : State) (range : Range 64) : Option State :=
  let counts := unlockCounts s.queue range
  if counts.2 = 0 then some s
  else
    let crushed := ((s.queue.take counts.2).drop counts.1).map Block.invalidate
    let queue := s.queue.take counts.1 ++ crushed ++ s.queue.drop counts.2
    if counts.1 ≠ 0 then mmFlushMprotectQueue host { s with queue } counts.1
    else some { s with queue := mmSanitizeQueue queue }

def mmProtect (s : State) (start length : Address) (prot : Protection) (tag : Nat) : Option State :=
  if prot = .rw ∨ prot = .wx then
    (mmUnlock host s (startLength start length)).map fun s => s.protect host start length prot
  else
    some { s with
      queue := mmDeferMprotect s.queue start length prot tag
      mirror := mmTrackProtection host start length prot s.mirror }

def mmFlush (s : State) : Option State := mmFlushMprotectQueue host s s.queue.length

def mmProtectImmediate (s : State) (start length : Address) (prot : Protection) : Option State :=
  let range := startLength start length
  let flushed := if s.queue.any (·.range.overlaps range) then mmFlush host s else some s
  flushed.map fun s => s.protect host start length prot

def mmFlushConflict (s : State) (predicate : Block -> Bool) : Option State :=
  let count := mmFindConflict predicate s.queue
  if count = 0 then some s else mmFlushMprotectQueue host s count

def mmFlushAddress (s : State) (vmAddress : BitVec 32) : Option State :=
  if s.queue = [] then some s
  else
    let addr : Address := BitVec.ofNat 64 (host.guestBase + vmAddress.toNat)
    mmFlushConflict host s (·.range.overlapsAddress addr)

def mmFlushRanges (s : State) (ranges : List (Range 64)) : Option State :=
  if s.queue = [] ∨ ranges = [] then some s
  else mmFlushConflict host s fun block => ranges.any fun range => block.range.overlaps range

def partialCount (lastTag : Nat) (queue : List Block) : Nat := (queue.takeWhile (·.syncTag ≤ lastTag)).length

def mmFlushPartial (s : State) (lastTag : Nat) : Option State :=
  let count := partialCount lastTag s.queue
  if count = 0 then some s else mmFlushMprotectQueue host s count

structure PageRange where
  start : Address
  length : Address
  startAligned : host.pageSize ∣ start.toNat
  lengthAligned : host.pageSize ∣ length.toNat
  nonempty : 0 < length.toNat
  fits : start.toNat + length.toNat < 2 ^ 64

structure Request where
  range : PageRange host
  prot : Protection
  tag : Nat

inductive Call
  | protect (request : Request host)
  | protectImmediate (request : Request host)
  | flush
  | flushAddress (vmAddress : BitVec 32)
  | flushRanges (ranges : List (Range 64))
  | flushPartial (lastTag : Nat)

variable {host}

def Call.request : Call host -> Option (Request host)
  | .protect request => some request
  | .protectImmediate request => some request
  | _ => none

def perform (s : State) : Call host -> Option State
  | .protect request => mmProtect host s request.range.start request.range.length request.prot request.tag
  | .protectImmediate request => mmProtectImmediate host s request.range.start request.range.length request.prot
  | .flush => mmFlush host s
  | .flushAddress vmAddress => mmFlushAddress host s vmAddress
  | .flushRanges ranges => mmFlushRanges host s ranges
  | .flushPartial lastTag => mmFlushPartial host s lastTag

def run (s : State) (calls : List (Call host)) : Option State := calls.foldlM perform s

def Request.covers (request : Request host) (address : Nat) : Bool :=
  decide (request.range.start.toNat ≤ address) &&
    decide (address < request.range.start.toNat + request.range.length.toNat)

def lastRequest (calls : List (Call host)) (address : Nat) : Option (Request host) :=
  Overlay.latest Request.covers (calls.filterMap Call.request) address

end EmuCore.Rsx.Mm
