import EmuCore.Lib.Align

namespace EmuCore.Memory

abbrev PageFlags := BitVec 8

namespace PageFlags

def readable : PageFlags := 0x01
def writable : PageFlags := 0x02
def executable : PageFlags := 0x04
def size64k : PageFlags := 0x20
def size1m : PageFlags := 0x40
def allocated : PageFlags := 0x80

end PageFlags

open PageFlags

-- g_pages, by the number of the 4K page.
abbrev Pages := Nat -> PageFlags

inductive Throw
  | invalidArguments
  | invalidAlignment
  | alreadyMapped
  | unexpectedPages
  | inconsistency
  | noMapping
  | ensure
deriving DecidableEq, Repr

variable (pages : Pages) (first count : Nat)

def fill (value : PageFlags) : Pages := fun i =>
  if first ≤ i ∧ i < first + count then value else pages i

def anyMapped : Bool :=
  (List.range' first count).any fun i => pages i != 0

def u32 (n : Nat) : Nat := n % 2 ^ 32

def sub32 (a b : Nat) : Nat := u32 (a + (2 ^ 32 - u32 b))

def nextPage (state : PageFlags) (i : Nat) : Nat :=
  if state &&& size1m ≠ 0 then Align.up 64 (i + 1) (0x100000 / 4096)
  else if state &&& size64k ≠ 0 then Align.up 64 (i + 1) (0x10000 / 4096)
  else i + 1

def checkLoop (pages : Pages) (flags : PageFlags) (max : Nat) : Nat -> Nat -> Bool
  | 0, _ => true
  | fuel + 1, i =>
    if i ≤ max then
      if ~~~pages i &&& flags ≠ 0 then false
      else checkLoop pages flags max fuel (nextPage (pages i) i)
    else true

variable (pages : Pages) (addr : Nat) (flags : PageFlags) (size : Nat)

def checkAddr : Bool :=
  if size = 0 then true
  else if addr > 2 ^ 32 - 1 ∨ 2 ^ 32 - addr < size then false
  else
    checkLoop pages (flags ||| allocated) ((addr + size - 1) / 4096)
      ((addr + size - 1) / 4096 + 1 - addr / 4096) (addr / 4096)

def pageMap : Except Throw Pages :=
  if size = 0 ∨ (size ||| addr) % 4096 ≠ 0 ∨ flags &&& allocated ≠ 0 then .error .invalidArguments
  else if anyMapped pages (addr / 4096) (size / 4096) then .error .alreadyMapped
  else .ok (fill pages (addr / 4096) (size / 4096) (flags ||| allocated))

def unmapScan (pages : Pages) : Nat -> Nat -> Nat -> PageFlags -> Except Throw Nat
  | 0, _, size, _ => .ok size
  | count + 1, i, size, mapFlags =>
    if pages i &&& allocated = 0 then .ok size
    else
      let pageFlags := pages i &&& ~~~(writable ||| readable)
      if size ≠ 0 ∧ mapFlags ≠ pageFlags then .error .inconsistency
      else unmapScan pages count (i + 1) (size + 4096) pageFlags

def pageUnmap (pages : Pages) (addr maxSize : Nat) : Except Throw (Nat × Pages) :=
  if maxSize = 0 ∨ (maxSize ||| addr) % 4096 ≠ 0 then .error .invalidArguments
  else
    match unmapScan pages (maxSize / 4096) (addr / 4096) 0 0 with
    | .error thrown => .error thrown
    | .ok size =>
      if size = 0 then .error .noMapping
      else .ok (size, fill pages (addr / 4096) (size / 4096) 0)

-- The loop of page_protect, which writes runs of pages with the same new value.
structure Protect where
  pages : Pages
  start : Nat
  startValue : PageFlags

def changed (set clear value : PageFlags) : PageFlags := (value ||| set) &&& ~~~clear

def Protect.flush (p : Protect) (i : Nat) : Pages :=
  if i ≠ p.start ∧ p.pages p.start ≠ p.startValue then
    fill p.pages p.start (i - p.start) p.startValue
  else p.pages

def Protect.step (set clear : PageFlags) (last : Nat) (p : Protect) (i : Nat) : Protect :=
  let newVal := if i < last then changed set clear (p.pages i) else executable
  if newVal = p.startValue then p else ⟨p.flush i, i, newVal⟩

def protectRange (pages : Pages) (set clear : PageFlags) (first count : Nat) : Pages :=
  ((List.range' first (count + 1)).foldl (Protect.step set clear (first + count))
    ⟨pages, first, executable⟩).pages

def roundedSize (first : PageFlags) (size : Nat) : Nat :=
  if first &&& size1m ≠ 0 then Align.up 32 size 0x100000
  else if first &&& size64k ≠ 0 then Align.up 32 size 0x10000
  else size

def pageProtect (pages : Pages) (addr size : Nat) (test set clear : PageFlags) :
    Except Throw (Bool × Pages) :=
  if size = 0 ∨ (size ||| addr) % 4096 ≠ 0 then .error .invalidArguments
  else
    let both := set &&& clear
    let set := set &&& ~~~both
    let clear := clear &&& ~~~both
    if ¬checkAddr pages addr (test ||| allocated) size then .ok (false, pages)
    else if set = 0 ∧ clear = 0 then .ok (true, pages)
    else
      let first := pages (addr / 4096)
      let size := roundedSize first size
      if size = 0 ∨
          ¬checkAddr pages addr (test ||| allocated ||| (first &&& (size1m ||| size64k))) size then
        .ok (false, pages)
      else .ok (true, protectRange pages set clear (addr / 4096) (size / 4096))

end EmuCore.Memory
