import EmuCore.Lv2.Sync

namespace EmuCore.Lv2.EventFlag

open Function

abbrev Pattern := BitVec 64

inductive Match
  | waitAnd
  | waitOr
deriving DecidableEq, Repr

inductive Clear
  | none
  | clear
  | clearAll
deriving DecidableEq, Repr

structure Mode where
  kind : Match
  clear : Clear
deriving DecidableEq, Repr

variable (pattern bitptn : Pattern) (mode : Mode)

def checkRefuses : Bool :=
  match mode.kind with
  | .waitAnd => pattern &&& bitptn != bitptn
  | .waitOr => pattern &&& bitptn == 0

def checkClears : Pattern :=
  match mode.clear with
  | .none => pattern
  | .clear => pattern &&& ~~~bitptn
  | .clearAll => 0

def checkPattern : Option Pattern :=
  if checkRefuses pattern bitptn mode then none else some (checkClears pattern bitptn mode)

-- Updates of the pattern that do not take the mutex: trywait and the fast path of wait, and clear.
inductive LockFree
  | wait (bitptn : Pattern) (mode : Mode)
  | clear (bitptn : Pattern)
deriving DecidableEq

def LockFree.apply (pattern : Pattern) : LockFree -> Pattern
  | .wait bitptn mode => (checkPattern pattern bitptn mode).getD pattern
  | .clear bitptn => pattern &&& bitptn

/-- A queued thread with the arguments it left in gpr[4] and gpr[5]. Its priority is an s32. -/
structure Waiter where
  thread : ThreadId
  prio : Int
  bitptn : Pattern
  mode : Mode
  prio_le : prio ≤ 2 ^ 31 - 1
deriving DecidableEq

def Waiter.refuses (w : Waiter) (pattern : Pattern) : Bool := checkRefuses pattern w.bitptn w.mode

-- gpr[3] == CELL_OK, gpr[6] and gpr[7] != 0 of the waiters.
structure Regs where
  gpr3 : ThreadId -> Bool
  gpr6 : ThreadId -> Pattern
  gpr7 : ThreadId -> Bool

def getNextScan (protocol : Protocol) (gpr7 : ThreadId -> Bool) :
    Option Waiter -> Int -> List Waiter -> Option Waiter
  | it, _, [] => it
  | it, prio, ppu :: rest =>
    if gpr7 ppu.thread = false ∧ (protocol ≠ .priority ∨ ppu.prio ≤ prio) then
      getNextScan protocol gpr7 (some ppu) ppu.prio rest
    else getNextScan protocol gpr7 it prio rest

def getNext (protocol : Protocol) (gpr7 : ThreadId -> Bool) (sq : List Waiter) : Option Waiter :=
  getNextScan protocol gpr7 none (2 ^ 31 - 1) sq

structure Pass where
  toWrite : Pattern
  dependantMask : Pattern
  count : Nat
  regs : Regs

def dependantMaskOr (bitptn toWrite : Pattern) (w : Waiter) : Pattern :=
  if w.mode.kind = .waitOr ∨ bitptn &&& w.bitptn &&& toWrite = w.bitptn then 0 else w.bitptn

def Pass.mark (p : Pass) (w : Waiter) : Pass :=
  { p with regs := { p.regs with gpr7 := update p.regs.gpr7 w.thread true } }

def Pass.accept (p : Pass) (bitptn : Pattern) (w : Waiter) (toWrite : Pattern) : Pass where
  toWrite := toWrite
  dependantMask := p.dependantMask ||| dependantMaskOr bitptn p.toWrite w
  count := p.count + 1
  regs := { p.regs with
    gpr3 := update p.regs.gpr3 w.thread true
    gpr6 := update p.regs.gpr6 w.thread p.toWrite }

def Pass.refuse (p : Pass) (w : Waiter) : Pass :=
  { p with
    regs := { p.regs with
      gpr3 := update p.regs.gpr3 w.thread false
      gpr6 := update p.regs.gpr6 w.thread p.toWrite } }

-- `while (auto it = get_next())`; each round marks one more waiter.
def passLoop (protocol : Protocol) (sq : List Waiter) (bitptn : Pattern) : Nat -> Pass -> Pass
  | 0, p => p
  | fuel + 1, p =>
    match getNext protocol p.regs.gpr7 sq with
    | none => p
    | some it =>
      let p := p.mark it
      match checkPattern p.toWrite it.bitptn it.mode with
      | some toWrite =>
        let p := p.accept bitptn it toWrite
        if toWrite = 0 then p else passLoop protocol sq bitptn fuel p
      | none => passLoop protocol sq bitptn fuel (p.refuse it)

def pass (protocol : Protocol) (sq : List Waiter) (bitptn pattern : Pattern) (regs : Regs) : Pass :=
  passLoop protocol sq bitptn (sq.length + 1)
    { toWrite := pattern ||| bitptn
      dependantMask := 0
      count := 0
      regs := { regs with gpr7 := fun _ => false } }

structure Outcome where
  x : Pattern
  pattern : Pattern
  count : Nat
  regs : Regs
  earlier : List Pattern
  last : Pattern

def finish (bitptn pattern x : Pattern) (p : Pass) : Outcome where
  x := x
  pattern := (x ||| bitptn) &&& ~~~((pattern ||| bitptn) &&& ~~~p.toWrite)
  count := p.count
  regs := p.regs
  earlier := []
  last := pattern

def setLoop (protocol : Protocol) (sq : List Waiter) (bitptn : Pattern) :
    List (List LockFree) -> Pattern -> Regs -> Outcome
  | [], pattern, regs => finish bitptn pattern pattern (pass protocol sq bitptn pattern regs)
  | updates :: rounds, pattern, regs =>
    let p := pass protocol sq bitptn pattern regs
    let x := updates.foldl LockFree.apply pattern
    if (x ^^^ pattern) &&& (p.dependantMask &&& ~~~bitptn) = 0 then finish bitptn pattern x p
    else
      let next := setLoop protocol sq bitptn rounds x p.regs
      { next with earlier := pattern :: next.earlier }

/-- A flag between two critical sections. Everybody who waits was refused by the pattern and has
no verdict yet. -/
structure Flag where
  protocol : Protocol
  single : Bool
  pattern : Pattern
  sq : List Waiter
  regs : Regs
  distinct : (sq.map Waiter.thread).Nodup
  refused : ∀ w ∈ sq, w.refuses pattern = true
  blank : ∀ w ∈ sq, regs.gpr3 w.thread = false

variable (f : Flag) (bitptn : Pattern) (rounds : List (List LockFree))

def setOutcome : Outcome :=
  setLoop f.protocol f.sq bitptn rounds f.pattern f.regs

def removed : List Waiter :=
  let out := setOutcome f bitptn rounds
  if out.count = 0 then [] else f.sq.filter fun w => out.regs.gpr3 w.thread

def remaining : List Waiter :=
  let out := setOutcome f bitptn rounds
  if out.count = 0 then f.sq else f.sq.filter fun w => !out.regs.gpr3 w.thread

end EmuCore.Lv2.EventFlag
