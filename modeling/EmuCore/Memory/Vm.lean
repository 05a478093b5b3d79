import EmuCore.Lib.SortedMap
import EmuCore.Lib.Transition
import EmuCore.Memory.Pages
import EmuCore.Util.AddressRange

namespace EmuCore.Memory

open PageFlags

abbrev BlockFlags := BitVec 64

namespace BlockFlags

def blockSize4k : BlockFlags := 0x100
def blockSize64k : BlockFlags := 0x200
def blockSize1m : BlockFlags := 0x400
def blockSizeMask : BlockFlags := 0xF00
def stackGuarded : BlockFlags := 0x10
def preallocated : BlockFlags := 0x20
def allocHidden : BlockFlags := 0x1000
def allocUnwritable : BlockFlags := 0x2000
def allocExecutable : BlockFlags := 0x4000
def allocProtMask : BlockFlags := 0x7000

end BlockFlags

open BlockFlags

def processBlockFlags (flags : BlockFlags) : BlockFlags :=
  let flags := if flags &&& blockSizeMask = 0 then flags ||| blockSize1m else flags
  if flags &&& blockSize4k ≠ 0 then flags ||| preallocated else flags &&& ~~~stackGuarded

lemma processBlockFlags_4k (flags : BlockFlags) : processBlockFlags flags &&& blockSize4k ≠ 0 ->
    processBlockFlags flags &&& preallocated ≠ 0 := by
  simp only [processBlockFlags]
  generalize (if flags &&& blockSizeMask = 0 then flags ||| blockSize1m else flags) = f
  by_cases small : f &&& blockSize4k = 0
  · rw [if_neg (by simpa using small), BitVec.and_assoc, BitVec.and_comm (~~~stackGuarded),
      ← BitVec.and_assoc, small]
    simp
  · rw [if_pos small]
    intro _ none
    have bit := congrArg (fun v => v.getLsbD 5) none
    simp [preallocated] at bit

/-- The constant part of a block: whole pages below 4 GiB. Blocks with 4K pages are allocated as a
whole. -/
structure Area where
  addr : Nat
  size : Nat
  flags : BlockFlags
  filled : 0 < size
  small : size < 2 ^ 32
  paged : addr % 4096 = 0 ∧ size % 4096 = 0
  bounded : addr + size ≤ 2 ^ 32
  common : flags &&& blockSize4k ≠ 0 -> flags &&& preallocated ≠ 0

def Area.make? (addr size : Nat) (flags : BlockFlags) : Option Area :=
  if ok : 0 < size ∧ size < 2 ^ 32 ∧ (addr % 4096 = 0 ∧ size % 4096 = 0) ∧ addr + size ≤ 2 ^ 32 then
    some ⟨addr, size, processBlockFlags flags, ok.1, ok.2.1, ok.2.2.1, ok.2.2.2,
      processBlockFlags_4k flags⟩
  else none

def Area.isCommon (b : Area) : Bool := b.flags &&& preallocated != 0

structure Entry where
  size : Nat
  shm : Option Nat
deriving DecidableEq

structure Block where
  area : Area
  map : SortedMap Nat Entry

def Area.guardRefuses (b : Area) (pages : Pages) (addr size : Nat) : Bool :=
  addr < u32 (b.addr + 4096) ||
    u32 (addr + size - 1) ≥ sub32 (sub32 (u32 (b.addr + b.size)) 4096) 1 ||
    pages (addr / 4096 - 1) != 0 || pages (addr / 4096 + size / 4096) != 0 ||
    (addr > u32 (b.addr + 4096) && pages (addr / 4096 - 2) != 0) ||
    (u32 (size + addr) < sub32 (u32 (b.addr + b.size)) 4096 &&
      pages (addr / 4096 + size / 4096 + 1) != 0)

def allocFlags (bflags : BlockFlags) : PageFlags :=
  (if bflags &&& allocHidden = 0 then
    readable ||| (if bflags &&& allocUnwritable = 0 then writable else 0)
  else 0) |||
  (if bflags &&& allocExecutable ≠ 0 then executable else 0) |||
  (if bflags &&& blockSizeMask = blockSize64k then size64k
  else if bflags &&& (blockSizeMask &&& ~~~blockSize1m) = 0 then size1m
  else 0)

def Area.tryAlloc (b : Area) (pages : Pages) (addr : Nat) (bflags : BlockFlags) (size : Nat) :
    Except Throw (Option Pages) :=
  if size = 0 then .ok none
  else if b.flags &&& stackGuarded ≠ 0 ∧ b.size < 0x100000 then .error .ensure
  else if b.flags &&& stackGuarded ≠ 0 ∧ b.guardRefuses pages addr size then .ok none
  else if anyMapped pages (addr / 4096) (u32 (addr + size - 1) / 4096 + 1 - addr / 4096) then .ok none
  else (pageMap pages addr (allocFlags bflags) size).map some

def Area.callFlags (b : Area) (src : Option Nat) (flags : BlockFlags) : BlockFlags :=
  if src = none then (b.flags &&& ~~~allocProtMask) ||| (flags &&& allocProtMask) else flags

def minPageSize (flags : BlockFlags) : Nat := if flags &&& blockSize4k ≠ 0 then 0x1000 else 0x10000

def countlZero (x : Nat) : Nat := if x = 0 then 32 else 31 - x.log2

-- The object of a new allocation; `fresh` is the one that make_shared would return.
def Area.shmFor (b : Area) (src : Option Nat) (fresh : Nat) : Except Throw (Option Nat) :=
  if b.isCommon then (if src = none then .ok none else .error .ensure)
  else .ok (some (src.getD fresh))

def Block.record (b : Block) (addr size : Nat) (shm : Option Nat) : Block :=
  { b with map := b.map.insert addr ⟨size, shm⟩ }

-- `for (;; addr += align)`
def Area.search (b : Area) (pages : Pages) (flags : BlockFlags) (size align max : Nat) :
    Nat -> Nat -> Except Throw (Option (Nat × Pages))
  | 0, _ => .ok none
  | fuel + 1, addr =>
    match b.tryAlloc pages addr flags size with
    | .error thrown => .error thrown
    | .ok (some mapped) => .ok (some (addr, mapped))
    | .ok none =>
      if addr = max then .ok none else b.search pages flags size align max fuel (u32 (addr + align))

variable (b : Block) (pages : Pages)

def Block.place (flags : BlockFlags) (size align : Nat)
    (shm : Option Nat) : Except Throw (Nat × Pages × Block) :=
  let max := Align.down 32 (sub32 (u32 (b.area.addr + b.area.size)) size) align
  let addr := Align.up 32 b.area.addr align
  if b.area.addr > max ∨ addr > max then .ok (0, pages, b)
  else
    match b.area.search pages flags size align max ((max - addr) / align + 1) addr with
    | .error thrown => .error thrown
    | .ok none => .ok (0, pages, b)
    | .ok (some (found, mapped)) => .ok (found, mapped, b.record found size shm)

def Block.alloc (origSize : Nat) (src : Option Nat) (align : Nat)
    (flags : BlockFlags) (fresh : Nat) : Except Throw (Nat × Pages × Block) :=
  let flags := b.area.callFlags src flags
  let size := Align.up 32 origSize (minPageSize flags)
  if align < minPageSize flags ∨ align ≠ 0x80000000 >>> countlZero align then
    .error .invalidAlignment
  else if origSize = 0 ∨ size = 0 ∨ origSize > size ∨ size > b.area.size then .ok (0, pages, b)
  else
    match b.area.shmFor src fresh with
    | .error thrown => .error thrown
    | .ok shm => b.place pages flags size align shm

def Block.falloc (addr origSize : Nat) (src : Option Nat)
    (flags : BlockFlags) (fresh : Nat) : Except Throw (Bool × Pages × Block) :=
  let flags := b.area.callFlags src flags
  let unit := minPageSize flags
  let size0 := u32 (origSize + addr % unit)
  let size := Align.up 32 size0 unit
  if size = 0 ∨ addr < b.area.addr ∨ origSize > size0 ∨ origSize > size ∨
      (addr - addr % unit) + size > b.area.addr + b.area.size ∨
      (src ≠ none ∧ (origSize ||| addr) % unit ≠ 0) ∨ flags &&& stackGuarded ≠ 0 then
    .ok (false, pages, b)
  else
    match b.area.shmFor src fresh with
    | .error thrown => .error thrown
    | .ok shm =>
      match b.area.tryAlloc pages (addr - addr % unit) flags size with
      | .error thrown => .error thrown
      | .ok none => .ok (false, pages, b)
      | .ok (some mapped) => .ok (true, mapped, b.record (addr - addr % unit) size shm)

def Block.forget (b : Block) (addr : Nat) : Block := { b with map := b.map.erase addr }

-- `ensure(size == _page_unmap(..))` is evaluated after the pages were unmapped.
def Block.dealloc (b : Block) (pages : Pages) (addr : Nat) (src : Option Nat) :
    Except Throw Nat × Pages × Block :=
  match b.map.find? addr with
  | none => (.ok 0, pages, b)
  | some entry =>
    if src ≠ none ∧ entry.shm ≠ src then (.ok 0, pages, b)
    else
      match pageUnmap pages addr entry.size with
      | .error thrown => (.error thrown, pages, b)
      | .ok (size, unmapped) =>
        if entry.size ≠ size then (.error .ensure, unmapped, b)
        else (.ok entry.size, unmapped, b.forget addr)

open AddressRange

/-- g_pages and the blocks of g_locations. -/
structure Vm where
  pages : Pages
  blocks : List Block

def startLength (addr size : Nat) : Range 32 :=
  if size = 0 then .invalidated else ⟨.ofNat 32 addr, .ofNat 32 (addr + size - 1)⟩

def Vm.testMap (s : Vm) (addr size : Nat) : Bool :=
  (startLength addr size).valid &&
    s.blocks.all fun b => !(startLength addr size).overlaps (startLength b.area.addr b.area.size)

def Vm.addBlock (s : Vm) (area : Area) : Vm := { s with blocks := s.blocks ++ [⟨area, ∅⟩] }

def Vm.map (s : Vm) (addr size : Nat) (flags : BlockFlags) : Except Throw (Option Area) :=
  if size = 0 ∨ (size ||| addr) % 4096 ≠ 0 then .error .invalidArguments
  else if ¬s.testMap addr size then .ok none
  else if anyMapped s.pages (addr / 4096) (size / 4096) then .error .unexpectedPages
  else .ok (Area.make? addr size flags)

def Vm.findLoop (s : Vm) (size align max : Nat) : Nat -> Nat -> Option Nat
  | 0, _ => none
  | fuel + 1, addr =>
    if s.testMap addr size then some addr
    else if addr = max then none
    else s.findLoop size align max fuel (u32 (addr + align))

def Vm.findMap (s : Vm) (origSize align : Nat) (flags : BlockFlags) : Except Throw (Option Area) :=
  let size := Align.up 32 origSize 0x10000
  let max := Align.down 32 (sub32 0xC0000000 size) align
  let first := Align.up 32 0x10000000 align
  if align < 0x10000 ∨ align ≠ 0x80000000 >>> countlZero align then .error .invalidAlignment
  else if size = 0 then .ok none
  else if size > 0xC0000000 - 0x10000000 ∨ max < 0x10000000 then .ok none
  else
    .ok ((s.findLoop size align max ((max - first) / align + 1) first).bind fun addr =>
      Area.make? addr size flags)

inductive Call
  | map (addr size : BitVec 32) (flags : BlockFlags)
  | findMap (size align : BitVec 32) (flags : BlockFlags)
  | alloc (block : Nat) (size : BitVec 32) (src : Option Nat) (align : BitVec 32)
      (flags : BlockFlags) (fresh : Nat)
  | falloc (block : Nat) (addr size : BitVec 32) (src : Option Nat) (flags : BlockFlags)
      (fresh : Nat)
  | dealloc (block : Nat) (addr : BitVec 32) (src : Option Nat)
  | pageProtect (addr size : BitVec 32) (test set clear : PageFlags)

def Vm.put (s : Vm) (block : Nat) (pages : Pages) (b : Block) : Vm :=
  ⟨pages, s.blocks.set block b⟩

def Vm.created (s : Vm) : Except Throw (Option Area) -> Vm
  | .ok (some area) => s.addBlock area
  | _ => s

def Vm.placed {A : Type} (s : Vm) (block : Nat) : Except Throw (A × Pages × Block) -> Vm
  | .ok (_, pages, b) => s.put block pages b
  | .error _ => s

def Vm.step (s : Vm) : Call -> Option Vm
  | .map addr size flags => some (s.created (s.map addr.toNat size.toNat flags))
  | .findMap size align flags => some (s.created (s.findMap size.toNat align.toNat flags))
  | .alloc block size src align flags fresh =>
    s.blocks[block]?.map fun b =>
      s.placed block (b.alloc s.pages size.toNat src align.toNat flags fresh)
  | .falloc block addr size src flags fresh =>
    s.blocks[block]?.map fun b =>
      s.placed block (b.falloc s.pages addr.toNat size.toNat src flags fresh)
  | .dealloc block addr src =>
    s.blocks[block]?.map fun b =>
      let result := b.dealloc s.pages addr.toNat src
      s.put block result.2.1 result.2.2
  | .pageProtect addr size test set clear =>
    match pageProtect s.pages addr.toNat size.toNat test set clear with
    | .ok (_, pages) => some { s with pages := pages }
    | .error _ => some s

def Vm.Empty (s : Vm) : Prop := (∀ i, s.pages i = 0) ∧ ∀ b ∈ s.blocks, b.map = ∅

def calls (init : Vm -> Prop) : Transition.System Vm Call where
  init := init
  step := Vm.step

-- The blocks that vm::init creates: video memory, stack and SPU.
def initialBlocks : List Block :=
  [⟨⟨0xC0000000, 0x10000000, processBlockFlags (blockSize64k ||| preallocated), by decide, by decide,
      by decide, by decide, processBlockFlags_4k _⟩, ∅⟩,
    ⟨⟨0xD0000000, 0x10000000, processBlockFlags (blockSize4k ||| preallocated ||| stackGuarded ||| 1),
      by decide, by decide, by decide, by decide, processBlockFlags_4k _⟩, ∅⟩,
    ⟨⟨0xE0000000, 0x20000000, processBlockFlags blockSize64k, by decide, by decide, by decide,
      by decide, processBlockFlags_4k _⟩, ∅⟩]

def initial : Vm := ⟨fun _ => 0, initialBlocks⟩

end EmuCore.Memory
