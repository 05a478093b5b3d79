import Mathlib.Tactic

namespace EmuCore.Rsx.Fragment

structure Register where
  id : Nat
  f16 : Bool
deriving DecidableEq, Repr

-- H0 to H47 or R0 to R23, with one mask bit for each of x, y, z and w.
structure RegisterRef where
  reg : Register
  mask : BitVec 4
  inFile : reg.id < if reg.f16 then 48 else 24

structure Operation where
  operands : List RegisterRef
  dest : RegisterRef
  literal : Bool

-- A literal constant takes the slot after its instruction. Offsets of branches are in slots.
inductive Word
  | nop (literal : Bool)
  | op (operation : Operation)
  | ife (elseAddr endAddr : Nat)
  | loop (endAddr : Nat)

def Word.size : Word -> Nat
  | .nop literal => if literal then 2 else 1
  | .op operation => if operation.literal then 2 else 1
  | .ife _ _ | .loop _ => 1

structure Instruction where
  addr : Nat
  operands : List RegisterRef
  dest : Option RegisterRef

-- A branch around nothing is left out of the graph.
def Word.instruction (pc : Nat) : Word -> Option Instruction
  | .nop _ => none
  | .op operation => some ⟨pc * 16, operation.operands, some operation.dest⟩
  | .ife _ endAddr | .loop endAddr => if endAddr = pc + 1 then none else some ⟨pc * 16, [], none⟩

inductive EdgeType
  | none
  | if
  | else
  | endif
  | loop
  | endloop
deriving DecidableEq, Repr

-- Blocks are known by their first slot.
structure FlowEdge where
  type : EdgeType
  source : Nat
  target : Nat
deriving DecidableEq, Repr

structure BasicBlock where
  id : Nat
  instructions : List Instruction
  succ : List FlowEdge
  pred : List FlowEdge

abbrev FlowGraph := List BasicBlock

namespace FlowGraph

def find (graph : FlowGraph) (id : Nat) : Option BasicBlock := List.find? (fun block => block.id = id) graph

variable (graph : FlowGraph)

def modify (id : Nat) (change : BasicBlock -> BasicBlock) : FlowGraph :=
  graph.map fun block => if block.id = id then change block else block

def insertEdge (parent succ : Nat) (type : EdgeType) : FlowGraph :=
  (graph.modify parent fun block => { block with succ := block.succ ++ [⟨type, parent, succ⟩] }).modify succ
    fun block => { block with pred := block.pred ++ [⟨type, parent, succ⟩] }

def push (parent id : Nat) (type : EdgeType) : FlowGraph :=
  insertEdge (graph ++ [⟨id, [], [], []⟩]) parent id type

end FlowGraph

def BasicBlock.isOfType (block : BasicBlock) (type : EdgeType) : Bool :=
  block.pred.length == 1 && (block.pred.head?.map (·.type)) == some type

structure Builder where
  blocks : FlowGraph
  bb : Nat
  endBlocks : List Nat
  elseBlocks : List Nat

namespace Builder

def empty : Builder := ⟨[⟨0, [], [], []⟩], 0, [], []⟩

variable (blocks : FlowGraph)

def exitOf (id : Nat) (type : EdgeType) : Option Nat :=
  (blocks.find id).bind fun block => (block.succ.find? fun edge => edge.type = type).map (·.target)

def safeInsertBlock (parent id : Nat) (type : EdgeType) : FlowGraph :=
  match blocks.find id with
  | some found =>
    -- an ELSE block is left for the block after its ENDIF
    let succ :=
      if found.isOfType .else ∧ (type = .endif ∨ type = .endloop) then
        (found.pred.head?.bind fun edge => exitOf blocks edge.source .endif).getD id
      else id
    blocks.insertEdge parent succ type
  | none => blocks.push parent id type

-- The edge through which a block was entered says where it ends.
def closeBlock (bb : Nat) : FlowGraph :=
  match blocks.find bb with
  | none => blocks
  | some block =>
    match block.pred.find? fun edge => edge.type ≠ .endif ∧ edge.type ≠ .endloop with
    | none => blocks
    | some front =>
      let close (type : EdgeType) :=
        match exitOf blocks front.source type with
        | none => blocks
        | some succ => blocks.insertEdge bb succ type
      match front.type with
      | .if | .else => close .endif
      | .loop => close .endloop
      | _ => blocks

def enter (pc : Nat) (st : Builder) : Builder :=
  if pc ∈ st.endBlocks ∨ pc ∈ st.elseBlocks then
    { st with blocks := closeBlock st.blocks st.bb, bb := pc }
  else st

def emit (instruction : Option Instruction) (st : Builder) : Builder :=
  match instruction with
  | none => st
  | some instruction =>
    { st with blocks := st.blocks.modify st.bb fun block =>
        { block with instructions := block.instructions ++ [instruction] } }

variable (pc : Nat) (word : Word) (st : Builder)

def branch : Builder :=
  match word with
  | .nop _ | .op _ => st
  | .ife elseAddr endAddr =>
    if endAddr = pc + 1 then st
    else
      let blocks := safeInsertBlock st.blocks st.bb (pc + 1) .if
      -- an empty IF takes the ELSE block over, with its condition inverted
      let hasElse := elseAddr ≠ pc + 1 ∧ endAddr ≠ elseAddr
      let blocks := if hasElse then safeInsertBlock blocks st.bb elseAddr .else else blocks
      { blocks := safeInsertBlock blocks st.bb endAddr .endif
        bb := pc + 1
        endBlocks := st.endBlocks ++ [endAddr]
        elseBlocks := if hasElse then st.elseBlocks ++ [elseAddr] else st.elseBlocks }
  | .loop endAddr =>
    if endAddr = pc + 1 then st
    else
      let blocks := safeInsertBlock st.blocks st.bb (pc + 1) .loop
      { st with
        blocks := safeInsertBlock blocks st.bb endAddr .endloop
        bb := pc + 1
        endBlocks := st.endBlocks ++ [endAddr] }

def step : Builder :=
  ((st.enter pc).emit (word.instruction pc)).branch pc word

def run : Nat -> List Word -> Builder -> Builder
  | _, [], st => st
  | pc, word :: rest, st => run (pc + word.size) rest (st.step pc word)

end Builder

def deconstructFragmentProgram (words : List Word) : FlowGraph :=
  let blocks := (Builder.run 0 words .empty).blocks
  (blocks.map fun block =>
    { block with
      pred := block.pred.insertionSort fun a b => a.source ≥ b.source
      succ := block.succ.insertionSort fun a b => a.target ≤ b.target }).insertionSort
    fun a b => a.id ≤ b.id

inductive Program
  | done
  | nop (literal : Bool) (rest : Program)
  | op (operation : Operation) (rest : Program)
  | ite (positive negative rest : Program)
  | loop (body rest : Program)

namespace Program

def size : Program -> Nat
  | done => 0
  | nop literal rest => (Word.nop literal).size + rest.size
  | op operation rest => (Word.op operation).size + rest.size
  | ite positive negative rest => 1 + (positive.size + (negative.size + rest.size))
  | loop body rest => 1 + (body.size + rest.size)

def compile : Program -> Nat -> List (Nat × Word)
  | done, _ => []
  | nop literal rest, pc => (pc, .nop literal) :: rest.compile (pc + (Word.nop literal).size)
  | op operation rest, pc => (pc, .op operation) :: rest.compile (pc + (Word.op operation).size)
  | ite positive negative rest, pc =>
    let elseAddr := pc + 1 + positive.size
    let endAddr := elseAddr + negative.size
    (pc, .ife elseAddr endAddr) ::
      (positive.compile (pc + 1) ++ (negative.compile elseAddr ++ rest.compile endAddr))
  | loop body rest, pc =>
    let endAddr := pc + 1 + body.size
    (pc, .loop endAddr) :: (body.compile (pc + 1) ++ rest.compile endAddr)

def words (program : Program) : List Word := (program.compile 0).map (·.2)

def graph (program : Program) : FlowGraph := deconstructFragmentProgram program.words

-- The words that an execution goes through: either side of a branch, a body any number of times.
def Trace : Program -> Nat -> List (Nat × Word) -> Prop
  | done, _, trace => trace = []
  | nop literal rest, pc, trace => ∃ after, trace = (pc, .nop literal) :: after ∧
      rest.Trace (pc + (Word.nop literal).size) after
  | op operation rest, pc, trace => ∃ after, trace = (pc, .op operation) :: after ∧
      rest.Trace (pc + (Word.op operation).size) after
  | ite positive negative rest, pc, trace =>
    let elseAddr := pc + 1 + positive.size
    let endAddr := elseAddr + negative.size
    ∃ inside after, trace = (pc, .ife elseAddr endAddr) :: (inside ++ after) ∧
      (positive.Trace (pc + 1) inside ∨ negative.Trace elseAddr inside) ∧ rest.Trace endAddr after
  | loop body rest, pc, trace =>
    let endAddr := pc + 1 + body.size
    ∃ (inside : List (List (Nat × Word))) (after : List (Nat × Word)),
      trace = (pc, .loop endAddr) :: (inside.flatten ++ after) ∧
      (∀ iteration ∈ inside, body.Trace (pc + 1) iteration) ∧ rest.Trace endAddr after

end Program

end EmuCore.Rsx.Fragment
