import EmuCore.Lib.Replica
import EmuCore.Rsx.FragmentGraph

namespace EmuCore.Rsx.Fragment

open Function List

inductive Content
  | unknown
  | float32
  | float16
  | dual
deriving DecidableEq, Repr

abbrev RegisterFile := Nat -> Content

def expectedType (f16 : Bool) : Content := if f16 then .float16 else .float32

-- The bytes of a register file that is R0 to R23 and, in the same place, H0 to H47.
def getRegisterFileRange (ref : RegisterRef) : List Nat :=
  if ref.mask = 0 ∨ ref.reg.id ≥ 48 then []
  else
    let laneWidth := if ref.reg.f16 then 2 else 4
    let fileOffset := ref.reg.id * laneWidth * 4
    (range 4).flatMap fun word =>
      if ref.mask.getLsbD word then (range laneWidth).map (fileOffset + word * laneWidth + ·) else []

namespace Instruction

def srcs (instruction : Instruction) : List RegisterRef := instruction.operands.filter fun ref => ref.mask ≠ 0

def dst (instruction : Instruction) : Option RegisterRef := instruction.dest.filter fun ref => ref.mask ≠ 0

end Instruction

structure BlockIo where
  output : RegisterFile
  input : RegisterFile

def BlockIo.read (f16 : Bool) (io : BlockIo) (index : Nat) : BlockIo :=
  if io.output index ≠ .unknown then io
  else if io.input index = expectedType f16 then io
  else if io.input index = .unknown then
    { io with input := update io.input index (expectedType f16) }
  else { io with input := update io.input index .dual }

def writeBytes (file : RegisterFile) (dst : Option RegisterRef) : RegisterFile :=
  match dst with
  | none => file
  | some dst => (getRegisterFileRange dst).foldl
      (fun file index => update file index (expectedType dst.reg.f16)) file

def BlockIo.step (io : BlockIo) (instruction : Instruction) : BlockIo :=
  let io := instruction.srcs.foldl
    (fun io src => (getRegisterFileRange src).foldl (BlockIo.read src.reg.f16) io) io
  { io with output := writeBytes io.output instruction.dst }

def annotateBlockIo (block : BasicBlock) : BlockIo :=
  block.instructions.foldl BlockIo.step ⟨fun _ => .unknown, fun _ => .unknown⟩

def maskOf (channel : Nat -> Bool) : BitVec 4 :=
  BitVec.ofBoolListLE [channel 0, channel 1, channel 2, channel 3]

variable (file : RegisterFile)

def compileRegister16 (reg16 : Fin 48) : Option RegisterRef :=
  let mask := maskOf fun channel =>
    let content := file (reg16 * 8 + 2 * channel)
    content = .dual || content = .float16
  if mask = 0 then none else some ⟨⟨reg16, true⟩, mask, by simp⟩

def compileRegister32 (reg32 : Fin 24) : Option RegisterRef :=
  let mask := maskOf fun channel =>
    (range 4).any fun byte =>
      let content := file (reg32 * 16 + 4 * channel + byte)
      content = .dual || content = .float32
  if mask = 0 then none else some ⟨⟨reg32, false⟩, mask, by simp⟩

def compileRegisterFile : List RegisterRef :=
  (finRange 48).filterMap (compileRegister16 file) ++
    (finRange 24).filterMap (compileRegister32 file)

def inputList (block : BasicBlock) : List RegisterRef := compileRegisterFile (annotateBlockIo block).input

-- `PK2` and the two halves of it write channel `ch` of `R dst` from `H src`.
-- `UP2` writes channels of `H dst` from channel `x` of `R src`.
inductive Barrier
  | pk2 (dst ch src x y : Nat)
  | or16Lo (dst ch src x : Nat)
  | or16Hi (dst ch src x : Nat)
  | up2 (dst : Nat) (channels : List Nat) (src x : Nat)
deriving DecidableEq, Repr

def decodeLanes16 (lanes : List Nat) : List (Nat × List Nat) :=
  (range 48).filterMap fun index =>
    let mask := (range 4).filter fun channel => lanes.contains (8 * index + 2 * channel)
    if mask = [] then none else some (index, mask)

structure RegisterBarrier32 where
  id : Nat
  orWord0 : Nat -> Bool
  orWord1 : Nat -> Bool

def RegisterBarrier32.mask (barrier : RegisterBarrier32) : List Nat :=
  (range 4).filter fun ch => barrier.orWord0 ch || barrier.orWord1 ch

def decodeLanes32 (lanes : List Nat) : List RegisterBarrier32 :=
  (range 48).filterMap fun index =>
    let barrier : RegisterBarrier32 :=
      ⟨index, fun ch => lanes.contains (16 * index + 4 * ch), fun ch => lanes.contains (16 * index + 4 * ch + 2)⟩
    if barrier.mask = [] then none else some barrier

def buildBarrier32 (barrier : RegisterBarrier32) : List Barrier :=
  barrier.mask.map fun ch =>
    let src := ch / 2 + barrier.id * 2
    let isWord0 := ch % 2 = 0
    let x := if isWord0 then 0 else 2
    let y := if isWord0 then 1 else 3
    if barrier.orWord0 ch && barrier.orWord1 ch then .pk2 barrier.id ch src x y
    else if barrier.orWord0 ch then .or16Lo barrier.id ch src x
    else .or16Hi barrier.id ch src y

def buildBarrier16 (id : Nat) : List Nat -> List Barrier
  | [] => []
  | [ch] => [.up2 id [ch] (id / 2) ((if ch < 2 then 0 else 1) + if id % 2 = 1 then 2 else 0)]
  | ch :: next :: rest =>
    let x := (if ch < 2 then 0 else 1) + if id % 2 = 1 then 2 else 0
    if ch % 2 = 0 ∧ next = ch + 1 then .up2 id [ch, next] (id / 2) x :: buildBarrier16 id rest
    else .up2 id [ch] (id / 2) x :: buildBarrier16 id (next :: rest)

def resolveDependencies (lanes : List Nat) (f16 : Bool) : List Barrier :=
  if f16 then (decodeLanes16 lanes).flatMap fun ref => buildBarrier16 ref.1 ref.2
  else (decodeLanes32 lanes).flatMap buildBarrier32

structure Scan where
  file : RegisterFile
  barrier16 : List Nat
  barrier32 : List Nat

def Scan.read (f16 : Bool) (scan : Scan) (index : Nat) : Scan :=
  if scan.file index = .unknown then scan
  else if scan.file index = expectedType f16 ∨ scan.file index = .dual then scan
  else if f16 then
    { scan with file := update scan.file index .dual, barrier16 := scan.barrier16 ++ [index] }
  else { scan with file := update scan.file index .dual, barrier32 := scan.barrier32 ++ [index] }

def scanSources (file : RegisterFile) (instruction : Instruction) : Scan :=
  instruction.srcs.foldl (fun scan src => (getRegisterFileRange src).foldl (Scan.read src.reg.f16) scan)
    ⟨file, [], []⟩

inductive Emitted
  | barrier (barrier : Barrier)
  | original (instruction : Instruction)

def insertDependencyBarriers (file : RegisterFile) : List Instruction -> List Emitted × RegisterFile
  | [] => ([], file)
  | instruction :: rest =>
    let scan := scanSources file instruction
    let after := insertDependencyBarriers (writeBytes scan.file instruction.dst) rest
    ((resolveDependencies scan.barrier16 true ++ resolveDependencies scan.barrier32 false).map .barrier ++
      .original instruction :: after.1, after.2)

def execRegisterFile (block : BasicBlock) : RegisterFile :=
  (insertDependencyBarriers (fun _ => .unknown) block.instructions).2

structure Context where
  sync : Nat -> RegisterFile
  epilogue : Nat -> List Barrier

-- The IF and ELSE edges are already a complete set.
def isAnchor (block target : BasicBlock) (edge : FlowEdge) : Bool :=
  edge.type = .endif && target.succ.length == 3 && (target.succ[1]?.map (·.type)) == some .else &&
    (target.succ[2]?.map (·.type)) == some .endif && (target.succ[2]?.map (·.target)) == some block.id

def clobberedLanes (ctx : Context) (target : BasicBlock) (lanes : List Nat) (f16 : Bool) : List Nat :=
  lanes.filter fun lane =>
    execRegisterFile target lane = expectedType (!f16) ∧ ctx.sync target.id lane = .unknown

def lanesToSearch (target : BasicBlock) (lanes : List Nat) : List Nat :=
  lanes.filter fun lane => execRegisterFile target lane = .unknown

def syncTarget (ctx : Context) (target : BasicBlock) (lanes : List Nat) (f16 : Bool) : Context :=
  let clobbered := clobberedLanes ctx target lanes f16
  { sync := update ctx.sync target.id fun lane =>
      if lane ∈ clobbered then .dual else ctx.sync target.id lane
    epilogue := update ctx.epilogue target.id
      (ctx.epilogue target.id ++ resolveDependencies clobbered f16) }

section Search

variable (graph : FlowGraph) (search : Context -> BasicBlock -> List Nat -> Context) (block : BasicBlock)
  (lanes : List Nat) (f16 : Bool)

def visitTarget (ctx : Context) (target : BasicBlock) : Context :=
  let ctx := syncTarget ctx target lanes f16
  let missing := lanesToSearch target lanes
  if missing = [] ∨ target.pred = [] then ctx else search ctx target missing

def followEdges : Context -> List FlowEdge -> Context
  | ctx, [] => ctx
  | ctx, edge :: rest =>
    match graph.find edge.source with
    | none => followEdges ctx rest
    | some target =>
      if isAnchor block target edge ∧ rest = [] then ctx
      else followEdges (visitTarget search lanes f16 ctx target) rest

end Search

def insertBlockRegisterDependency (graph : FlowGraph) (f16 : Bool) :
    Nat -> Context -> BasicBlock -> List Nat -> Context
  | 0, ctx, _, _ => ctx
  | fuel + 1, ctx, block, lanes =>
    followEdges graph (insertBlockRegisterDependency graph f16 fuel) block lanes f16 ctx block.pred

variable (graph : FlowGraph)

-- Edges lead to blocks further down, so a block's own slot bounds the way up from it.
def insertBlockDependencies (ctx : Context) (block : BasicBlock) : Context :=
  (inputList block).foldl (fun ctx ref =>
    insertBlockRegisterDependency graph ref.reg.f16 block.id ctx block (getRegisterFileRange ref)) ctx

def registerDependencyPass : Context :=
  graph.reverse.foldl (insertBlockDependencies graph) ⟨fun _ _ => .unknown, fun _ => []⟩

def emitBlock (block : BasicBlock) : List Emitted :=
  (insertDependencyBarriers (fun _ => .unknown) block.instructions).1 ++
    ((registerDependencyPass graph).epilogue block.id).map .barrier

abbrev Byte := BitVec 8

-- The H file under `true` and the R file under `false`, byte by byte.
abbrev Files := Bool -> Nat -> Byte

def Barrier.exec (files : Files) : Barrier -> Files
  | .pk2 dst ch src x y => fun f16 i =>
    if f16 = false ∧ i / 4 = dst * 4 + ch then
      files true (src * 8 + (if i % 4 < 2 then x else y) * 2 + i % 2)
    else files f16 i
  | .or16Lo dst ch src x => fun f16 i =>
    if f16 = false ∧ i / 2 = (dst * 4 + ch) * 2 then files true (src * 8 + x * 2 + i % 2) else files f16 i
  | .or16Hi dst ch src x => fun f16 i =>
    if f16 = false ∧ i / 2 = (dst * 4 + ch) * 2 + 1 then files true (src * 8 + x * 2 + i % 2)
    else files f16 i
  | .up2 dst channels src x => fun f16 i =>
    if f16 = true ∧ i / 8 = dst ∧ i / 2 % 4 ∈ channels then files false (src * 16 + x * 4 + i % 4)
    else files f16 i

def reads (instruction : Instruction) : List (Replica.Access Nat) :=
  instruction.srcs.map fun ref => ⟨ref.reg.f16, getRegisterFileRange ref⟩

def writes (instruction : Instruction) : Option (Replica.Access Nat) :=
  instruction.dst.map fun ref => ⟨ref.reg.f16, getRegisterFileRange ref⟩

-- What an instruction writes, from the values of its sources.
abbrev Meaning := Instruction -> List (List Byte) -> Nat -> Byte

def separateRun (meaning : Meaning) : Files -> List Emitted -> List (List (List Byte))
  | _, [] => []
  | files, .barrier barrier :: rest => separateRun meaning (barrier.exec files) rest
  | files, .original instruction :: rest =>
    Replica.sources reads files instruction ::
      separateRun meaning (Replica.apply reads writes meaning files (.act instruction)) rest

def aliasedRun (meaning : Meaning) (mem : Nat -> Byte) (instructions : List Instruction) :
    List (List (List Byte)) :=
  Replica.direct reads writes meaning mem instructions

namespace Program

def instructions (trace : List (Nat × Word)) : List Instruction :=
  trace.filterMap fun fetch => fetch.2.instruction fetch.1

def visits (graph : FlowGraph) (trace : List (Nat × Word)) : List BasicBlock :=
  trace.filterMap fun fetch => graph.find fetch.1

-- A byte that is read before it is written starts with the same value in the file it is read from.
def Preserves (program : Program) : Prop :=
  ∀ (meaning : Meaning) (mem : Nat -> Byte) (files : Files) (trace : List (Nat × Word)),
    program.Trace 0 trace ->
    (∀ f16 i, Replica.ReadsFirst reads writes (instructions trace) f16 i -> files f16 i = mem i) ->
    separateRun meaning files ((visits program.graph trace).flatMap (emitBlock program.graph)) =
      aliasedRun meaning mem (instructions trace)

end Program

end EmuCore.Rsx.Fragment
