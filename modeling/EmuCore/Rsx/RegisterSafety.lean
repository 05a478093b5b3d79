import EmuCore.Rsx.FragmentTrace

namespace EmuCore.Rsx.Fragment

open List

open Replica (Touches hit ReadsFirst Status Op)

def blockStatus (graph : FlowGraph) (block : BasicBlock) (i : Nat) (entry : Status) : Status :=
  if (registerDependencyPass graph).sync block.id i = .dual then .both
  else (execRegisterFile block i).status entry

structure BlockOps (graph : FlowGraph) (block : BasicBlock) (epilogue : List (Op Instruction Nat)) : Prop where
  emitted : Matches (emitBlock graph block) (blockOps (fun _ => .unknown) block.instructions ++ epilogue)
  copying : ∀ op ∈ epilogue, ∃ f16 lanes, op = .copy f16 lanes ∧
    ∀ i ∈ lanes, execRegisterFile block i = expectedType (!f16)
  synced : ∀ i, (registerDependencyPass graph).sync block.id i = .dual ↔
    ∃ f16 lanes, .copy f16 lanes ∈ epilogue ∧ i ∈ lanes

abbrev BasicBlock.ops (block : BasicBlock) : List (Op Instruction Nat) :=
  blockOps (fun _ => .unknown) block.instructions

variable {graph : FlowGraph} {block : BasicBlock}

lemma block_ops (descending : Descending graph) (known : Known graph block) :
    ∃ epilogue, BlockOps graph block epilogue := by
  obtain ⟨epilogue, emitted, copying, synced⟩ :=
    (registerDependencyPass_spec descending).1.epilogue block known
  exact ⟨epilogue, (matches_block (fun _ _ _ => rfl) block.instructions).append emitted, copying, synced⟩

section

variable {epilogue : List (Op Instruction Nat)} (copying : ∀ op ∈ epilogue, ∃ f16 lanes, op = .copy f16 lanes ∧ ∀ i ∈ lanes, execRegisterFile block i = expectedType (!f16))

include copying

lemma copies_status (i : Nat) (status : Status) :
    status.afterAll writes i epilogue = .both ∧ (∃ f16 lanes, .copy f16 lanes ∈ epilogue ∧ i ∈ lanes) ∨
      status.afterAll writes i epilogue = status ∧ ¬∃ f16 lanes, .copy f16 lanes ∈ epilogue ∧ i ∈ lanes := by
  induction epilogue generalizing status with
  | nil => exact .inr ⟨rfl, by simp⟩
  | cons op rest ih =>
    rw [forall_mem_cons] at copying
    obtain ⟨⟨f16, lanes, rfl, typed⟩, others⟩ := copying
    rw [Status.afterAll_cons]
    by_cases here : i ∈ lanes
    · rcases ih others (Status.after writes i status (.copy f16 lanes)) with ⟨both, -⟩ | ⟨same, -⟩
      · exact .inl ⟨both, f16, lanes, mem_cons_self, here⟩
      · refine .inl ⟨same.trans ?_, f16, lanes, mem_cons_self, here⟩
        simp [Status.after, here]
    have unchanged : Status.after writes i status (.copy f16 lanes) = status := by simp [Status.after, here]
    rw [unchanged]
    rcases ih others status with ⟨both, side, more, member, inside⟩ | ⟨same, never⟩
    · exact .inl ⟨both, side, more, mem_cons_of_mem _ member, inside⟩
    refine .inr ⟨same, ?_⟩
    rintro ⟨side, more, member, inside⟩
    rcases mem_cons.mp member with equal | member
    · cases equal
      exact here inside
    · exact never ⟨side, more, member, inside⟩

lemma copies_ok {status : Nat -> Status}
    (typed : ∀ i f16, execRegisterFile block i = expectedType (!f16) -> (status i).Copyable f16) :
    Replica.CopiesOk writes status epilogue ∧ Replica.ReadsOk reads writes status epilogue := by
  induction epilogue generalizing status with
  | nil => exact ⟨trivial, trivial⟩
  | cons op rest ih =>
    rw [forall_mem_cons] at copying
    obtain ⟨⟨f16, lanes, rfl, here⟩, others⟩ := copying
    have still : ∀ i side, execRegisterFile block i = expectedType (!side) ->
        ((status i).after writes i (.copy f16 lanes : Op Instruction Nat)).Copyable side := by
      intro i side same
      by_cases inside : i ∈ lanes
      · exact .inr (by simp [Status.after, inside])
      · simpa [Status.after, inside] using typed i side same
    have later := ih others still
    exact ⟨⟨fun i inside => typed i f16 (here i inside), later.1⟩, later.2⟩

lemma acts_copies : Replica.acts epilogue = [] := by
  induction epilogue with
  | nil => rfl
  | cons op rest ih =>
    rw [forall_mem_cons] at copying
    obtain ⟨⟨f16, lanes, rfl, -⟩, others⟩ := copying
    exact ih others

end

namespace BlockOps

variable {graph : FlowGraph} {block : BasicBlock} {epilogue : List (Op Instruction Nat)}

lemma status (ops : BlockOps graph block epilogue) (i : Nat) (entry : Status) :
    entry.afterAll writes i (block.ops ++ epilogue) =
      blockStatus graph block i entry := by
  have body : entry.afterAll writes i block.ops =
      (execRegisterFile block i).status entry :=
    blockOps_status (fun _ => .unknown) block.instructions entry i
  rw [Status.afterAll_append, body, blockStatus]
  rcases copies_status ops.copying i ((execRegisterFile block i).status entry) with
    ⟨both, some_copy⟩ | ⟨same, never⟩
  · rw [both, if_pos ((ops.synced i).mpr some_copy)]
  · rw [same, if_neg fun synced => never ((ops.synced i).mp synced)]

lemma ok (ops : BlockOps graph block epilogue) (entry : Nat -> Status) :
    Replica.CopiesOk writes entry (block.ops ++ epilogue) ∧
      (Replica.ReadsOk reads writes entry (block.ops ++ epilogue) ↔
        ∀ f16 i, ReadsFirst reads writes block.instructions f16 i -> (entry i).Readable f16) := by
  have body : ∀ i, (entry i).afterAll writes i block.ops =
      (execRegisterFile block i).status (entry i) :=
    fun i => blockOps_status (fun _ => .unknown) block.instructions (entry i) i
  have typed : ∀ i f16, execRegisterFile block i = expectedType (!f16) ->
      ((execRegisterFile block i).status (entry i)).Copyable f16 := by
    intro i f16 typed
    rw [typed, status_expectedType]
    exact .inl rfl
  have after := copies_ok ops.copying typed
  have copies := blockOps_copiesOk (fun _ => .unknown) block.instructions entry
  have reading := blockOps_readsOk (fun _ => .unknown) block.instructions entry
  simp only [Content.status, true_implies] at copies reading
  rw [Replica.copiesOk_append, Replica.readsOk_append]
  simp only [body]
  exact ⟨⟨copies, after.1⟩, (and_iff_left after.2).trans reading⟩

end BlockOps

def pathStatus (graph : FlowGraph) (i : Nat) (entry : Status) (path : List BasicBlock) : Status :=
  path.foldl (fun status block => blockStatus graph block i status) entry

def Clean (graph : FlowGraph) (entry : Nat -> Status) (path : List BasicBlock) : Prop :=
  ∀ before block after, path = before ++ block :: after -> ∀ f16 i,
    ReadsFirst reads writes block.instructions f16 i -> (pathStatus graph i (entry i) before).Readable f16

variable {path : List BasicBlock}

lemma clean_cons {entry : Nat -> Status} :
    Clean graph entry (block :: path) ↔
      (∀ f16 i, ReadsFirst reads writes block.instructions f16 i -> (entry i).Readable f16) ∧
        Clean graph (fun i => blockStatus graph block i (entry i)) path := by
  constructor
  · intro clean
    refine ⟨clean [] block path rfl, fun before next after same => ?_⟩
    exact clean (block :: before) next after (by rw [same, cons_append])
  rintro ⟨first, rest⟩ before next after same
  cases before with
  | nil =>
    cases same
    exact first
  | cons other before =>
    rw [cons_append] at same
    cases same
    exact rest before next after rfl

section Path

variable {graph : FlowGraph} {epilogue : BasicBlock -> List (Op Instruction Nat)}

def pathOps (epilogue : BasicBlock -> List (Op Instruction Nat)) (path : List BasicBlock) :
    List (Op Instruction Nat) :=
  path.flatMap fun block => blockOps (fun _ => .unknown) block.instructions ++ epilogue block

variable (ops : ∀ block ∈ path, BlockOps graph block (epilogue block))

include ops

lemma pathOps_matches :
    Matches (path.flatMap (emitBlock graph)) (pathOps epilogue path) := by
  induction path with
  | nil => exact matches_nil
  | cons block path ih =>
    rw [forall_mem_cons] at ops
    exact ops.1.emitted.append (ih ops.2)

lemma pathOps_acts :
    Replica.acts (pathOps epilogue path) = path.flatMap (·.instructions) := by
  induction path with
  | nil => rfl
  | cons block path ih =>
    rw [forall_mem_cons] at ops
    rw [pathOps, flatMap_cons, Replica.acts_append, Replica.acts_append, acts_blockOps,
      acts_copies ops.1.copying, append_nil, flatMap_cons, ← ih ops.2]
    rfl

lemma pathOps_ok (entry : Nat -> Status) :
    Replica.CopiesOk writes entry (pathOps epilogue path) ∧
      (Replica.ReadsOk reads writes entry (pathOps epilogue path) ↔ Clean graph entry path) := by
  induction path generalizing entry with
  | nil => exact ⟨trivial, by simp [pathOps, Replica.ReadsOk, Clean]⟩
  | cons block path ih =>
    rw [forall_mem_cons] at ops
    have first := ops.1.ok entry
    have rest := ih ops.2 (fun i => blockStatus graph block i (entry i))
    rw [pathOps, flatMap_cons, Replica.copiesOk_append, Replica.readsOk_append, clean_cons]
    simp only [ops.1.status]
    exact ⟨⟨first.1, rest.1⟩, and_congr first.2 rest.2⟩

end Path

lemma exists_split_snoc {α : Type} {P Q : α -> Prop} {l : List α} {last : α} :
    (∃ before a after, l ++ [last] = before ++ a :: after ∧ P a ∧ ∀ b ∈ after, Q b) ↔
      P last ∨ Q last ∧ ∃ before a after, l = before ++ a :: after ∧ P a ∧ ∀ b ∈ after, Q b := by
  constructor
  · rintro ⟨before, a, after, same, holds, later⟩
    rcases eq_nil_or_concat after with rfl | ⟨start, final, rfl⟩
    · obtain rfl := (List.cons.inj (append_inj' same rfl).2).1
      exact .inl holds
    · have split : l ++ [last] = (before ++ a :: start) ++ [final] := by simpa using same
      obtain ⟨rfl, ends⟩ := append_inj' split rfl
      obtain rfl := (List.cons.inj ends).1
      exact .inr ⟨later last (by simp), before, a, start, rfl, holds, fun b member => later b (by simp [member])⟩
  · rintro (holds | ⟨here, before, a, after, rfl, holds, later⟩)
    · exact ⟨l, last, [], rfl, holds, by simp⟩
    · exact ⟨before, a, after ++ [last], by simp, holds, forall_mem_append.mpr ⟨later, by simpa using here⟩⟩

lemma pathStatus_only (descending : Descending graph) (known : ∀ block ∈ path, Known graph block) {i : Nat}
    {f16 : Bool} :
    pathStatus graph i .fresh path = .only (!f16) ↔
      ∃ before block after, path = before ++ block :: after ∧
        (execRegisterFile block i = expectedType (!f16) ∧ ¬Reached graph f16 i block) ∧
        ∀ other ∈ after, execRegisterFile other i = .unknown := by
  have spec := (registerDependencyPass_spec descending).2
  induction path using List.reverseRecOn with
  | nil => simp [pathStatus]
  | append_singleton path last ih =>
    have inside : ∀ block ∈ path, Known graph block := fun block member => known block (by simp [member])
    have step : pathStatus graph i .fresh (path ++ [last]) =
        blockStatus graph last i (pathStatus graph i .fresh path) := by
      rw [pathStatus, foldl_append]
      rfl
    have synced := spec last i (known last (by simp))
    have earlier : _ ↔ _ := ih inside
    rw [step, blockStatus, exists_split_snoc, ← earlier]
    by_cases case : execRegisterFile last i = .unknown
    · have unsynced : ¬(registerDependencyPass graph).sync last.id i = .dual := by
        rw [synced, case]
        rintro ⟨side, typed, -⟩
        exact expectedType_ne_unknown _ typed.symm
      rw [if_neg unsynced, case, Content.status]
      simp [(expectedType_ne_unknown _).symm]
    -- a block that touches the byte decides alone
    by_cases wide : execRegisterFile last i = expectedType (!f16)
    · have reached : (registerDependencyPass graph).sync last.id i = .dual ↔ Reached graph f16 i last := by
        rw [synced]
        constructor
        · rintro ⟨side, typed, found⟩
          obtain rfl := Bool.not_inj (expectedType_injective (wide.symm.trans typed))
          exact found
        · exact fun found => ⟨f16, wide, found⟩
      by_cases found : Reached graph f16 i last
      · rw [if_pos (reached.mpr found)]
        simp [found, case]
      · rw [if_neg fun same => found (reached.mp same), wide, status_expectedType]
        simp [found]
    · refine iff_of_false ?_ (by simp [wide, case])
      split
      · simp
      rcases content_cases (execRegisterFile last i) f16 with same | same | same | same
      · exact absurd same case
      · simp [same, Content.status]
      · simp [same]
      · exact absurd same wide

-- The condition under which the pass is right: whenever a byte that was last written in one width is read in
-- the other, its writer is found by going up the graph from some block that takes the byte in that width.
def Synchronised (graph : FlowGraph) (path : List BasicBlock) : Prop :=
  ∀ before writer between reader after, path = before ++ writer :: (between ++ reader :: after) ->
    ∀ f16 i, execRegisterFile writer i = expectedType (!f16) ->
      (∀ block ∈ between, execRegisterFile block i = .unknown) ->
      ReadsFirst reads writes reader.instructions f16 i -> Reached graph f16 i writer

lemma clean_iff_synchronised (descending : Descending graph) (known : ∀ block ∈ path, Known graph block) :
    Clean graph (fun _ => .fresh) path ↔ Synchronised graph path := by
  have unreadable : ∀ {status : Status} {f16 : Bool}, ¬status.Readable f16 ↔ status = .only (!f16) := by
    intro status f16
    cases status with
    | fresh | both => simp [Status.Readable]
    | only side => cases side <;> cases f16 <;> simp [Status.Readable]
  constructor
  · intro clean before writer between reader after same f16 i typed untouched first
    by_contra missed
    have readable := clean (before ++ writer :: between) reader after (by simp [same]) f16 i first
    refine unreadable.mpr ((pathStatus_only descending ?_).mpr
      ⟨before, writer, between, rfl, ⟨typed, missed⟩, untouched⟩) readable
    intro block member
    refine known block ?_
    rw [same, ← cons_append, ← append_assoc]
    exact mem_append_left _ member
  · intro synchronised before reader after same f16 i first
    by_contra wrong
    have inside : ∀ block ∈ before, Known graph block := fun block member => known block (by simp [same, member])
    obtain ⟨start, writer, between, rfl, ⟨typed, missed⟩, untouched⟩ :=
      (pathStatus_only descending inside).mp (unreadable.mp wrong)
    exact missed (synchronised start writer between reader after (by simp [same]) f16 i typed untouched first)

namespace Program

lemma visits_known {trace : List (Nat × Word)} :
    ∀ block ∈ visits graph trace, Known graph block := by
  intro block member
  obtain ⟨fetch, -, found⟩ := mem_filterMap.mp member
  exact (find_known found).1

lemma preserves_of_synchronised (program : Program)
    (synchronised : ∀ trace, program.Trace 0 trace ->
      Synchronised program.graph (visits program.graph trace)) : program.Preserves := by
  intro meaning mem files trace traced agree
  have descending := program.graph_descending
  choose! epilogue spec using fun block (known : Known program.graph block) => block_ops descending known
  have ops : ∀ block ∈ visits program.graph trace, BlockOps program.graph block (epilogue block) :=
    fun block member => spec block (visits_known block member)
  have clean := (clean_iff_synchronised descending visits_known).mpr (synchronised trace traced)
  have checked := pathOps_ok ops (fun _ => .fresh)
  have acts := (pathOps_acts ops).trans (program.trace_visits traced).symm
  have emitted := pathOps_matches ops meaning files []
  rw [append_nil] at emitted
  rw [emitted, aliasedRun, ← acts]
  simp only [separateRun, append_nil]
  refine Replica.split_eq_direct checked.1 (checked.2.mpr clean) (fun i side known => absurd rfl known) ?_
  intro f16 i _ first
  exact agree f16 i (acts ▸ first)

end Program

end EmuCore.Rsx.Fragment
