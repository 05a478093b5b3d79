import EmuCore.Rsx.RegisterSafety

namespace EmuCore.Rsx.Fragment

open List

open Replica (Touches hit ReadsFirst Status Op Carries)

lemma blockOps_append (file : RegisterFile) (first second : List Instruction) :
    blockOps file (first ++ second) =
      blockOps file first ++ blockOps (insertDependencyBarriers file first).2 second := by
  induction first generalizing file with
  | nil => rfl
  | cons instruction rest ih =>
    rw [cons_append, blockOps, ih, blockOps, append_assoc]
    rfl

variable {instructions : List Instruction}

lemma exec_writer {file : RegisterFile} {i : Nat} {f16 : Bool}
    (typed : (insertDependencyBarriers file instructions).2 i = expectedType (!f16)) :
    (file i = expectedType (!f16) ∧
        ∀ other ∈ instructions, hit writes other i = none ∧ ¬Touches reads other f16 i) ∨
      ∃ first writer last, instructions = first ++ writer :: last ∧ hit writes writer i = some (!f16) ∧
        ∀ other ∈ last, hit writes other i = none ∧ ¬Touches reads other f16 i := by
  induction instructions generalizing file with
  | nil => exact .inl ⟨typed, by simp⟩
  | cons instruction rest ih =>
    rcases ih typed with ⟨before, untouched⟩ | ⟨first, writer, last, rfl, written, untouched⟩
    · rw [writeBytes_apply] at before
      cases place : hit writes instruction i with
      | some side =>
        rw [place, Option.elim_some] at before
        rw [expectedType_injective before] at place
        exact .inr ⟨[], instruction, rest, rfl, place, untouched⟩
      | none =>
        rw [place, Option.elim_none] at before
        have scanned := scanSources_scanned file instruction
        have calm : ∀ side, Touches reads instruction side i -> file i ≠ expectedType (!side) :=
          fun side touches clash => expectedType_ne_dual _ (before.symm.trans (scanned.dual side i touches clash))
        have same := (scanned.kept i calm).symm.trans before
        exact .inl ⟨same, forall_mem_cons.mpr ⟨⟨place, fun touches => calm f16 touches same⟩, untouched⟩⟩
    · exact .inr ⟨instruction :: first, writer, last, rfl, written, untouched⟩

lemma exec_untouched (instructions : List Instruction) (file : RegisterFile) (i : Nat) :
    (insertDependencyBarriers file instructions).2 i = .unknown ↔
      file i = .unknown ∧ ∀ other ∈ instructions, hit writes other i = none := by
  induction instructions generalizing file with
  | nil => simp [insertDependencyBarriers]
  | cons instruction rest ih =>
    rw [insertDependencyBarriers, forall_mem_cons]
    simp only [ih, writeBytes_apply]
    cases place : hit writes instruction i with
    | none => simp [scanSources_unknown]
    | some side => simp [expectedType_ne_unknown]

variable {instruction : Instruction} {block : BasicBlock}

section Marked

variable {i : Nat} {f16 : Bool} {mark : Instruction -> Bool}

lemma scan_carries {file : RegisterFile} {before after : Bool}
    (clean : file i = .unknown ∨ ¬Touches reads instruction f16 i ∨ before = false)
    (away : mark instruction -> hit writes instruction i ≠ some f16)
    (stain : (if (hit writes instruction i).isSome then mark instruction else before) = after) :
    Carries writes i mark f16 before after (scanOps file instruction) := by
  have clear : i ∈ (scanSources file instruction).barrier f16 -> before = false := by
    intro inside
    obtain ⟨touches, typed⟩ := ((scanSources_scanned file instruction).barrier f16 i).mp inside
    rcases clean with unknown | untouched | clean
    · exact absurd (typed.symm.trans unknown) (expectedType_ne_unknown _)
    · exact absurd touches untouched
    · exact clean
  refine ⟨⟨fun same inside => clear ?_, fun same inside => clear ?_, away, trivial⟩, stain⟩ <;>
    · rw [← same]
      exact inside

variable (i f16) in
-- Without a marked instruction the stain stays exactly where the register file is still untyped.
lemma carries_unmarked (file : RegisterFile) (before : Bool)
    (unmarked : ∀ instruction ∈ instructions, mark instruction = false) (clean : before = true -> file i = .unknown) :
    Carries writes i mark f16 before
      (before && decide ((insertDependencyBarriers file instructions).2 i = .unknown)) (blockOps file instructions) := by
  induction instructions generalizing file before with
  | nil => exact ⟨trivial, by cases before <;> simp_all [insertDependencyBarriers, blockOps, Replica.stainedAll]⟩
  | cons instruction rest ih =>
    rw [forall_mem_cons] at unmarked
    have here : Carries writes i mark f16 before
        (before && decide (writeBytes (scanSources file instruction).file instruction.dst i = .unknown))
        (scanOps file instruction) := by
      refine scan_carries ?_ (by simp [unmarked.1]) ?_
      · cases before with
        | false => exact .inr (.inr rfl)
        | true => exact .inl (clean rfl)
      · rw [writeBytes_apply, unmarked.1]
        cases hit writes instruction i with
        | none => cases before <;> simp_all [scanSources_unknown]
        | some side => simp [expectedType_ne_unknown]
    have whole := here.append (ih (writeBytes (scanSources file instruction).file instruction.dst) _ unmarked.2 (by simp))
    have last := exec_untouched rest (writeBytes (scanSources file instruction).file instruction.dst) i
    rw [Bool.and_assoc, ← Bool.decide_and,
      decide_eq_decide.mpr (and_iff_right_of_imp fun unknown => (last.mp unknown).1)] at whole
    exact whole

lemma carries_untouched (file : RegisterFile) (before : Bool)
    (untouched : ∀ other ∈ instructions, hit writes other i = none ∧ ¬Touches reads other f16 i) :
    Carries writes i mark f16 before before (blockOps file instructions) := by
  induction instructions generalizing file with
  | nil => exact ⟨trivial, rfl⟩
  | cons instruction rest ih =>
    rw [forall_mem_cons] at untouched
    exact (scan_carries (.inr (.inl untouched.1.2)) (by simp [untouched.1.1]) (by simp [untouched.1.1])).append
      (ih _ untouched.2)

lemma carries_copies (before : Bool) {epilogue : List (Op Instruction Nat)}
    (copying : ∀ op ∈ epilogue, ∃ side lanes, op = .copy side lanes ∧
      ∀ i ∈ lanes, execRegisterFile block i = expectedType (!side))
    (clean : ∀ lanes, .copy f16 lanes ∈ epilogue -> i ∈ lanes -> before = false) :
    Carries writes i mark f16 before before epilogue := by
  induction epilogue with
  | nil => exact ⟨trivial, rfl⟩
  | cons op rest ih =>
    rw [forall_mem_cons] at copying
    obtain ⟨⟨side, lanes, rfl, -⟩, others⟩ := copying
    have later := ih others fun lanes member => clean lanes (mem_cons_of_mem _ member)
    refine ⟨⟨fun same inside => clean lanes ?_ inside, later.1⟩, later.2⟩
    rw [same]
    exact mem_cons_self

variable {graph : FlowGraph} {block : BasicBlock} {epilogue : List (Op Instruction Nat)}

lemma BlockOps.carries_unmarked (ops : BlockOps graph block epilogue)
    (unmarked : ∀ instruction ∈ block.instructions, mark instruction = false) (before : Bool) :
    Carries writes i mark f16 before (before && decide (execRegisterFile block i = .unknown)) (block.ops ++ epilogue) := by
  refine (Fragment.carries_unmarked i f16 (fun _ => .unknown) before unmarked fun _ => rfl).append
    (carries_copies _ ops.copying fun lanes member inside => ?_)
  obtain ⟨side, other, same, typed⟩ := ops.copying _ member
  cases same
  have typed : (insertDependencyBarriers (fun _ => .unknown) block.instructions).2 i = _ := typed i inside
  simp [typed, expectedType_ne_unknown]

lemma BlockOps.carries_writer (ops : BlockOps graph block epilogue) {first last : List Instruction}
    {writer : Instruction} (parts : block.instructions = first ++ writer :: last)
    (unmarked : ∀ instruction ∈ first, mark instruction = false) (marked : mark writer = true)
    (written : hit writes writer i = some (!f16))
    (untouched : ∀ other ∈ last, hit writes other i = none ∧ ¬Touches reads other f16 i)
    (unsynced : (registerDependencyPass graph).sync block.id i ≠ .dual) (before : Bool) :
    Carries writes i mark f16 before true (block.ops ++ epilogue) := by
  have head := Fragment.carries_unmarked i f16 (fun _ => .unknown) before unmarked fun _ => rfl
  have copies : Carries writes i mark f16 true true epilogue := carries_copies true ops.copying
    fun lanes member inside => absurd ((ops.synced i).mpr ⟨f16, lanes, member, inside⟩) unsynced
  rw [BasicBlock.ops, parts, blockOps_append, blockOps]
  refine (head.append ((scan_carries ?_ (fun _ => ?_) ?_).append (carries_untouched _ true untouched))).append copies
  · by_cases unknown : (insertDependencyBarriers (fun _ => .unknown) first).2 i = .unknown
    · exact .inl unknown
    · exact .inr (.inr (by simp [unknown]))
  · rw [written]
    cases f16 <;> decide
  · simp [written, marked]

lemma exists_reader {f16 : Bool} {i : Nat} (first : ReadsFirst reads writes instructions f16 i) :
    ∃ earlier reader later, instructions = earlier ++ reader :: later ∧ Touches reads reader f16 i ∧
      ∀ other ∈ earlier, hit writes other i = none := by
  induction instructions with
  | nil => cases first
  | cons instruction rest ih =>
    rcases first with touches | ⟨away, first⟩
    · exact ⟨[], instruction, rest, rfl, touches, by simp⟩
    · obtain ⟨earlier, reader, later, rfl, touches, before⟩ := ih first
      exact ⟨instruction :: earlier, reader, later, rfl, touches, forall_mem_cons.mpr ⟨away, before⟩⟩

variable (f16) in
lemma carries_reader {earlier : List Instruction} (reader : Instruction) (later : List Instruction)
    (unmarked : ∀ instruction ∈ earlier, mark instruction = false)
    (untouched : ∀ other ∈ earlier, hit writes other i = none) :
    ∃ start rest, blockOps (fun _ => .unknown) (earlier ++ reader :: later) = start ++ .act reader :: rest ∧
      Carries writes i mark f16 true true start := by
  have body := Fragment.carries_unmarked i f16 (fun _ => .unknown) true unmarked fun _ => rfl
  have unknown := (exec_untouched earlier (fun _ => .unknown) i).mpr ⟨rfl, untouched⟩
  generalize reached : (insertDependencyBarriers (fun _ => .unknown) earlier).2 = file at unknown body
  have nothing : ∀ side, i ∉ (scanSources file reader).barrier side := by
    intro side inside
    have typed := (((scanSources_scanned file reader).barrier side i).mp inside).2
    exact expectedType_ne_unknown _ (typed.symm.trans unknown)
  rw [unknown] at body
  refine ⟨_ ++ [.copy true (scanSources file reader).barrier16, .copy false (scanSources file reader).barrier32],
    blockOps (writeBytes (scanSources file reader).file reader.dst) later, ?_, body.append ⟨?_, rfl⟩⟩
  · rw [blockOps_append, reached, blockOps, append_assoc]
    rfl
  · exact ⟨fun _ inside => absurd inside (nothing true), fun _ inside => absurd inside (nothing false), trivial⟩

lemma path_carries {epilogue : BasicBlock -> List (Op Instruction Nat)} {path : List BasicBlock} {Kept : Bool -> Prop}
    (each : ∀ block ∈ path, ∀ before, Kept before -> ∃ after, Kept after ∧
      Carries writes i mark f16 before after (block.ops ++ epilogue block)) {before : Bool} (kept : Kept before) :
    ∃ after, Kept after ∧ Carries writes i mark f16 before after (pathOps epilogue path) := by
  induction path generalizing before with
  | nil => exact ⟨before, kept, trivial, rfl⟩
  | cons block path ih =>
    rw [forall_mem_cons] at each
    obtain ⟨between, kept, head⟩ := each.1 before kept
    obtain ⟨after, kept, tail⟩ := ih each.2 kept
    exact ⟨after, kept, head.append tail⟩

end Marked

variable {pc : Nat}

lemma instruction_addr {word : Word} (found : word.instruction pc = some instruction) :
    instruction.addr = pc * 16 := by
  cases word with
  | nop literal => cases found
  | op operation =>
    cases found
    rfl
  | ife elseAddr endAddr | loop endAddr =>
    simp only [Word.instruction] at found
    split at found
    · cases found
    · cases found
      rfl

variable {bb : Nat}

lemma mem_emitted {x : Nat} {fetch : Nat × Word}
    (member : instruction ∈ if x = bb then (fetch.2.instruction fetch.1).toList else []) :
    x = bb ∧ instruction.addr = fetch.1 * 16 := by
  split at member
  next here => exact ⟨here, instruction_addr (Option.mem_toList.mp member)⟩
  next => cases member

variable {starts : List Nat}

lemma contribution_mem {code : Code} {x : Nat} (laid : Laid pc code)
    (member : instruction ∈ contribution starts bb code x) :
    pc * 16 ≤ instruction.addr := by
  induction code generalizing pc bb with
  | nil => cases member
  | cons fetch rest ih =>
    obtain ⟨rfl, later⟩ := laid
    rw [contribution, mem_append] at member
    rcases member with here | there
    · exact (mem_emitted here).2.ge
    · have := ih later there
      omega

lemma contribution_unique {code : Code} {x y : Nat} (laid : Laid pc code) {one two : Instruction}
    (first : one ∈ contribution starts bb code x) (second : two ∈ contribution starts bb code y)
    (same : one.addr = two.addr) : x = y := by
  induction code generalizing pc bb with
  | nil => cases first
  | cons fetch rest ih =>
    obtain ⟨rfl, later⟩ := laid
    have size := fetch.2.size_pos
    rw [contribution, mem_append] at first second
    rcases first with first | first <;> rcases second with second | second
    · rw [(mem_emitted first).1, (mem_emitted second).1]
    · have := (mem_emitted first).2
      have := contribution_mem later second
      omega
    · have := (mem_emitted second).2
      have := contribution_mem later first
      omega
    · exact ih later first second

lemma contribution_sorted {code : Code} {x : Nat} (laid : Laid pc code) :
    (contribution starts bb code x).Pairwise fun one two => one.addr < two.addr := by
  induction code generalizing pc bb with
  | nil => exact List.Pairwise.nil
  | cons fetch rest ih =>
    obtain ⟨rfl, later⟩ := laid
    rw [contribution]
    generalize (if fetch.1 ∈ starts then fetch.1 else bb) = current
    refine pairwise_append.mpr ⟨?_, ih later, fun one first two second => ?_⟩
    · split
      · cases fetch.2.instruction fetch.1 <;> simp
      · exact List.Pairwise.nil
    · have := (mem_emitted first).2
      have := contribution_mem later second
      have := fetch.2.size_pos
      omega

namespace Program

lemma block_instructions (program : Program) (known : Known program.graph block) :
    block.instructions = contribution (leaders (program.compile 0)) 0 (program.compile 0) block.id := by
  rw [← program.graph_instructions, FlowGraph.view, known]
  rfl

lemma block_sorted (program : Program) (known : Known program.graph block) :
    block.instructions.Pairwise fun one two => one.addr < two.addr := by
  rw [program.block_instructions known]
  exact contribution_sorted program.laid

lemma instruction_unique (program : Program) {one two : BasicBlock} (knownOne : Known program.graph one)
    (knownTwo : Known program.graph two) {first second : Instruction} (inOne : first ∈ one.instructions)
    (inTwo : second ∈ two.instructions) (same : first.addr = second.addr) : one = two ∧ first = second := by
  have equal : one.id = two.id := by
    have placeOne := inOne
    have placeTwo := inTwo
    rw [program.block_instructions knownOne] at placeOne
    rw [program.block_instructions knownTwo] at placeTwo
    exact contribution_unique program.laid placeOne placeTwo same
  obtain rfl : one = two := Option.some.inj (knownOne.symm.trans (equal ▸ knownTwo))
  refine ⟨rfl, ?_⟩
  have distinct : (one.instructions.map (·.addr)).Nodup :=
    pairwise_map.mpr ((program.block_sorted knownOne).imp Nat.ne_of_lt)
  exact inj_on_of_nodup_map distinct inOne inTwo same

lemma synchronised_of_preserves {program : Program} (preserves : program.Preserves)
    {trace : List (Nat × Word)} (traced : program.Trace 0 trace) :
    Synchronised program.graph (visits program.graph trace) := by
  intro before writing between reading after path f16 i typed untouched first
  by_contra missed
  have descending := program.graph_descending
  choose! epilogue spec using fun block (known : Known program.graph block) => block_ops descending known
  have known : ∀ block ∈ before ++ writing :: (between ++ reading :: after), Known program.graph block :=
    path ▸ visits_known
  have ops : ∀ block ∈ before ++ writing :: (between ++ reading :: after),
      BlockOps program.graph block (epilogue block) := fun block member => spec block (known block member)
  have knownWriting := known writing (by simp)
  have unsynced : (registerDependencyPass program.graph).sync writing.id i ≠ .dual := by
    rw [ne_eq, (registerDependencyPass_spec descending).2 writing i knownWriting]
    rintro ⟨side, other, found⟩
    obtain rfl := Bool.not_inj (expectedType_injective (typed.symm.trans other))
    exact missed found
  rcases exec_writer typed with ⟨never, -⟩ | ⟨head, writer, last, parts, written, quiet⟩
  · exact expectedType_ne_unknown _ never.symm
  have inWriting : writer ∈ writing.instructions := by simp [parts]
  let mark : Instruction -> Bool := fun other => decide (other.addr = writer.addr)
  have marks : ∀ block, Known program.graph block -> ∀ other ∈ block.instructions, mark other = true ->
      block = writing ∧ other = writer := fun block known other member marked =>
    program.instruction_unique known knownWriting member inWriting (of_decide_eq_true marked)
  have unmarked : ∀ block, Known program.graph block -> block ≠ writing ->
      ∀ other ∈ block.instructions, mark other = false := fun block known elsewhere other member =>
    Bool.eq_false_iff.mpr fun marked => elsewhere (marks block known other member marked).1
  have headUnmarked : ∀ other ∈ head, mark other = false := by
    intro other member
    refine Bool.eq_false_iff.mpr fun marked => ?_
    have ordered := parts ▸ program.block_sorted knownWriting
    have less := (pairwise_append.mp ordered).2.2 other member writer mem_cons_self
    exact less.ne (of_decide_eq_true marked)
  have write : ∀ dirt, Carries writes i mark f16 dirt true (writing.ops ++ epilogue writing) :=
    (ops writing (by simp)).carries_writer parts headUnmarked (decide_eq_true rfl) written quiet unsynced
  obtain ⟨earlier, reader, later, readingParts, touches, none⟩ := exists_reader first
  have earlierUnmarked : ∀ other ∈ earlier, mark other = false := by
    intro other member
    refine Bool.eq_false_iff.mpr fun marked => ?_
    have here := (marks reading (known reading (by simp)) other (by simp [readingParts, member]) marked).2
    have away := none other member
    rw [here, written] at away
    cases away
  obtain ⟨start, rest, split, starts⟩ := carries_reader f16 reader later earlierUnmarked none
  have begins : ∃ dirt, True ∧ Carries writes i mark f16 false dirt (pathOps epilogue before) := by
    refine path_carries (fun block member dirt _ => ?_) trivial
    by_cases here : block = writing
    · exact ⟨true, trivial, here ▸ write dirt⟩
    · exact ⟨_, trivial, (ops block (by simp [member])).carries_unmarked
        (unmarked block (known block (by simp [member])) here) dirt⟩
  have keeps : ∃ dirt, dirt = true ∧ Carries writes i mark f16 true dirt (pathOps epilogue between) := by
    refine path_carries (fun block member dirt kept => ?_) rfl
    have elsewhere : block ≠ writing := by
      rintro rfl
      exact expectedType_ne_unknown _ (typed.symm.trans (untouched block member))
    refine ⟨_, ?_, (ops block (by simp [member])).carries_unmarked
      (unmarked block (known block (by simp [member])) elsewhere) dirt⟩
    simp [kept, untouched block member]
  have whole : pathOps epilogue (visits program.graph trace) =
      (pathOps epilogue before ++ ((writing.ops ++ epilogue writing) ++
        (pathOps epilogue between ++ start))) ++ .act reader :: (rest ++ epilogue reading ++
          pathOps epilogue after) := by
    rw [path]
    simp only [pathOps, flatMap_append, flatMap_cons, readingParts, split, append_assoc,
      cons_append]
  have allOps : ∀ block ∈ visits program.graph trace, BlockOps program.graph block (epilogue block) :=
    path ▸ ops
  have copies := (pathOps_ok allOps (fun _ => .fresh)).1
  have acts := (pathOps_acts allOps).trans (program.trace_visits traced).symm
  have emitted := pathOps_matches allOps (Replica.marking i mark 0 1) (fun _ _ => 0) []
  have run := preserves (Replica.marking i mark 0 1) (fun _ => 0) (fun _ _ => 0) trace traced fun _ _ _ => rfl
  rw [whole, Replica.copiesOk_append] at copies
  rw [append_nil] at emitted
  rw [emitted, aliasedRun, ← acts, whole] at run
  simp only [separateRun, append_nil] at run
  obtain ⟨dirt, -, begins⟩ := begins
  obtain ⟨_, rfl, keeps⟩ := keeps
  exact Replica.split_ne_direct reads 0 1 copies.1 (begins.append ((write dirt).append (keeps.append starts)))
    touches (by decide) run

def half (id : Nat) (inFile : id < 48) : RegisterRef := ⟨⟨id, true⟩, 1, inFile⟩

def full (id : Nat) (inFile : id < 24) : RegisterRef := ⟨⟨id, false⟩, 1, inFile⟩

def writeHalf (id : Nat) (inFile : id < 48) : Operation := ⟨[], half id inFile, false⟩

-- MOV R1.x, R0.x
def readFull : Operation := ⟨[full 0 (by decide)], full 1 (by decide), false⟩

-- IF { IF { MOV H2.x } ENDIF; MOV H0.x } ENDIF; MOV R1.x, R0.x
-- The block of MOV H0.x was opened by the inner ENDIF, and only blocks opened by IF, ELSE or LOOP are joined to
-- the one after the outer ENDIF.
def nestedTail : Program :=
  .ite (.ite (.op (writeHalf 2 (by decide)) .done) .done (.op (writeHalf 0 (by decide)) .done)) .done
    (.op readFull .done)

-- LOOP { MOV R1.x, R0.x; MOV H0.x } ENDLOOP
-- The body is not joined to itself.
def loopCarried : Program := .loop (.op readFull (.op (writeHalf 0 (by decide)) .done)) .done

lemma nestedTail_trace : nestedTail.Trace 0 [(0, .ife 4 4), (1, .ife 3 3), (2, .op (writeHalf 2 (by decide))),
    (3, .op (writeHalf 0 (by decide))), (4, .op readFull)] :=
  ⟨[(1, .ife 3 3), (2, .op (writeHalf 2 (by decide))), (3, .op (writeHalf 0 (by decide)))], [(4, .op readFull)],
    rfl, .inl ⟨[(2, .op (writeHalf 2 (by decide)))], [(3, .op (writeHalf 0 (by decide)))], rfl,
      .inl ⟨[], rfl, rfl⟩, [], rfl, rfl⟩, [], rfl, rfl⟩

lemma loopCarried_trace : loopCarried.Trace 0 [(0, .loop 3), (1, .op readFull),
    (2, .op (writeHalf 0 (by decide))), (1, .op readFull), (2, .op (writeHalf 0 (by decide)))] := by
  refine ⟨[[(1, .op readFull), (2, .op (writeHalf 0 (by decide)))],
    [(1, .op readFull), (2, .op (writeHalf 0 (by decide)))]], [], rfl, ?_, rfl⟩
  intro iteration member
  rw [mem_pair, or_self] at member
  subst member
  exact ⟨[(2, .op (writeHalf 0 (by decide)))], rfl, [], rfl, rfl⟩

end Program

end EmuCore.Rsx.Fragment
