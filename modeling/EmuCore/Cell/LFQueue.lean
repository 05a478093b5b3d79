import EmuCore.Lib.Circular
import EmuCore.Lib.Transition

namespace EmuCore.Cell.LFQueue

-- push1_t (m_h5, m_h6, m_h7, m_h8) and pop1_t (m_h1, m_h2, m_h3, m_h4).
structure Word where
  completed : BitVec 16
  mask : BitVec 16
  waiting : BitVec 16
  next : BitVec 16
deriving DecidableEq

inductive Code
  | ok
  | perm
  | stat
  | busy
  | again
deriving DecidableEq

inductive Direction
  | spu2spu
  | spu2ppu
  | ppu2spu
  | any2any
deriving DecidableEq

-- The arguments isBlocking and useEventQueue, and var1, which is set after a wait.
structure Call where
  isBlocking : Nat
  useEventQueue : Bool
  var1 : Bool

-- One round of the inner loop: what it returns, waits for or stores with compare_and_swap.
inductive Round
  | leave (code : Code)
  | spin
  | wait
  | store (word : Word) (pointer : Option Int) (code : Code)
deriving DecidableEq

def wrapped (depth : Nat) (var2 : Int) : Int := if var2 < 0 then var2 + depth * 2 else var2

/-- The round that GetPushPointer and GetPopPointer have in common. They differ in how far it is from
the counter of the other side, and in the distance at which there is a position. -/
def pointerRound (depth : Nat) (distance : Int -> Int) (ready : Int -> Bool) (detached : Bool) (call : Call)
    (old : Word) : Round :=
  let word := if call.var1 then { old with waiting := 0 } else old
  if call.isBlocking ≠ 0 ∧ call.useEventQueue ∧ detached then .leave .stat
  else if call.useEventQueue ∧ ((word.completed.toNat : Int) ≠ word.next.toInt ∨ word.waiting ≠ 0) then
    .store word none .busy
  else
    let pointer := word.next.toInt
    if ready (wrapped depth (distance pointer)) then
      .store { word with next := if pointer + 1 ≥ depth * 2 then 0#16 else word.next + 1#16 } (some pointer) .ok
    else if call.isBlocking = 0 then .leave .again
    else if !call.useEventQueue then .spin
    else if call.isBlocking ≠ 3 then .wait
    else .store { word with waiting := 3 } none .ok

variable (direction : Direction) (depth : Nat) (detached : Bool)

def getPushPointer (push1 : Word) (popH1 : BitVec 16)
    (call : Call) : Round :=
  if direction ≠ .ppu2spu then .leave .perm
  else pointerRound depth (· - popH1.toNat) (· < depth) detached call push1

def getPopPointer (pop1 : Word) (pushH5 : BitVec 16)
    (call : Call) : Round :=
  if direction ≠ .spu2ppu then .leave .perm
  else pointerRound depth (pushH5.toNat - ·) (0 < ·) detached call pop1

-- After the compare_and_swap: the call returns, or waits for an event and goes on with var1 set.
def Round.returned : Round -> Option Code
  | .leave code => some code
  | .spin => none
  | .wait => none
  | .store word _ code => if word.waiting = 0 ∨ code ≠ .ok then some code else none

def acceptsDepth (depth : Nat) : Bool := !(depth == 0 || depth > 0x7fff)

def slot (depth : Nat) (pos : Int) : Int := if pos ≥ depth then pos - depth else pos

inductive Side
  | push
  | pop
deriving DecidableEq

-- The word the calls change, the counter of the other side, and the positions that were handed out.
structure State where
  own : Word
  other : BitVec 16
  detached : Bool
  handed : List Int

inductive Action
  | call (call : Call)
  | advance (count : Nat)
  | touch (completed mask waiting : BitVec 16) (detached : Bool)

variable (side : Side) (depth : Nat) (s : State)

def State.round (call : Call) : Round :=
  match side with
  | .push => getPushPointer .ppu2spu depth s.detached s.own s.other call
  | .pop => getPopPointer .spu2ppu depth s.detached s.own s.other call

def State.outstanding : Nat :=
  match side with
  | .push => Circular.ahead (2 * depth) s.own.next.toNat s.other.toNat
  | .pop => Circular.ahead (2 * depth) s.other.toNat s.own.next.toNat

def State.mayAdvance (count : Nat) : Prop :=
  match side with
  | .push => count ≤ s.outstanding side depth
  | .pop => s.outstanding side depth + count ≤ depth

instance instDecidableMayAdvance (side : Side) (depth : Nat) (s : State) (count : Nat) :
    Decidable (s.mayAdvance side depth count) :=
  match side with
  | .push => inferInstanceAs (Decidable (_ ≤ _))
  | .pop => inferInstanceAs (Decidable (_ ≤ _))

def State.take (s : State) : Round -> State
  | .store word pointer _ => { s with own := word, handed := pointer.toList ++ s.handed }
  | _ => s

def step (side : Side) (depth : Nat) (s : State) : Action -> Option State
  | .call call => some (s.take (s.round side depth call))
  | .advance count =>
    if s.mayAdvance side depth count then
      some { s with other := BitVec.ofNat 16 ((s.other.toNat + count) % (2 * depth)) }
    else none
  | .touch completed mask waiting detached =>
    some { s with own := ⟨completed, mask, waiting, s.own.next⟩, detached := detached }

-- syncLFQueueInitialize keeps m_h3 and m_h7.
def started (s : State) : Prop :=
  s.own.completed = 0 ∧ s.own.mask = 0 ∧ s.own.next = 0 ∧ s.other = 0 ∧ s.handed = []

def system (side : Side) (depth : Nat) : Transition.System State Action := ⟨started, step side depth⟩

structure Sound (side : Side) (depth : Nat) (s : State) : Prop where
  inRange : ∀ pos ∈ s.handed, 0 ≤ pos ∧ pos < 2 * depth
  consecutive : s.handed.IsChain fun later earlier : Int => later = (earlier + 1) % (2 * depth)
  slots : ∀ pos ∈ s.handed, 0 ≤ slot depth pos ∧ slot depth pos < depth
  few : s.outstanding side depth ≤ depth

end EmuCore.Cell.LFQueue
