import EmuCore.Rsx.RegisterScan

namespace EmuCore.Rsx.Fragment

open List Function

open Replica (Touches hit ReadsFirst Op)

def Marks (f16 : Bool) (content : Content) : Prop := content = expectedType f16 ∨ content = .dual

def Descending (graph : FlowGraph) : Prop := ∀ block ∈ graph, ∀ edge ∈ block.pred, edge.source < block.id

def Known (graph : FlowGraph) (block : BasicBlock) : Prop := graph.find block.id = some block

variable {graph : FlowGraph} {block : BasicBlock}

lemma find_known {id : Nat} (found : graph.find id = some block) :
    Known graph block ∧ block.id = id ∧ block ∈ graph := by
  have same : block.id = id := by simpa using find?_some found
  exact ⟨by rw [Known, same, found], same, mem_of_find?_eq_some found⟩

lemma known_unique {a b : BasicBlock} (first : Known graph a) (second : Known graph b) (same : a.id = b.id) :
    a = b := by
  unfold Known at first second
  rw [same, second] at first
  exact (Option.some.inj first).symm

def Follows (graph : FlowGraph) (block : BasicBlock) : List FlowEdge -> BasicBlock -> Prop
  | [], _ => False
  | edge :: rest, target =>
    graph.find edge.source = some target ∧ ¬(isAnchor block target edge = true ∧ rest = []) ∨
      Follows graph block rest target

inductive Walk (graph : FlowGraph) (i : Nat) : BasicBlock -> BasicBlock -> Prop
  | last {block target : BasicBlock} (edge : Follows graph block block.pred target) : Walk graph i block target
  | through {block middle target : BasicBlock} (edge : Follows graph block block.pred middle)
      (untouched : execRegisterFile middle i = .unknown) (rest : Walk graph i middle target) :
      Walk graph i block target

def Reached (graph : FlowGraph) (f16 : Bool) (i : Nat) (target : BasicBlock) : Prop :=
  ∃ block ∈ graph, ∃ ref ∈ inputList block,
    ref.reg.f16 = f16 ∧ i ∈ getRegisterFileRange ref ∧ Walk graph i block target

variable {target : BasicBlock}

lemma follows_known {edges : List FlowEdge} (follows : Follows graph block edges target) :
    Known graph target ∧ target ∈ graph ∧ ∃ edge ∈ edges, edge.source = target.id := by
  induction edges with
  | nil => cases follows
  | cons edge rest ih =>
    rcases follows with ⟨found, -⟩ | later
    · obtain ⟨known, same, member⟩ := find_known found
      exact ⟨known, member, edge, mem_cons_self, same.symm⟩
    · obtain ⟨known, member, chosen, inside, same⟩ := ih later
      exact ⟨known, member, chosen, mem_cons_of_mem _ inside, same⟩

lemma follows_lower (descending : Descending graph) (member : block ∈ graph)
    (follows : Follows graph block block.pred target) : target.id < block.id := by
  obtain ⟨-, -, edge, inside, same⟩ := follows_known follows
  exact same ▸ descending block member edge inside

lemma walk_iff {i : Nat} :
    Walk graph i block target ↔
      ∃ next, Follows graph block block.pred next ∧
        (next = target ∨ execRegisterFile next i = .unknown ∧ Walk graph i next target) := by
  constructor
  · rintro (edge | ⟨edge, untouched, rest⟩)
    · exact ⟨_, edge, .inl rfl⟩
    · exact ⟨_, edge, .inr ⟨untouched, rest⟩⟩
  · rintro ⟨next, edge, rfl | ⟨untouched, rest⟩⟩
    · exact .last edge
    · exact .through edge untouched rest

def EpilogueOk (block : BasicBlock) (sync : RegisterFile) (barriers : List Barrier) : Prop :=
  ∃ ops : List (Op Instruction Nat), Matches (barriers.map .barrier) ops ∧
    (∀ op ∈ ops, ∃ f16 lanes, op = .copy f16 lanes ∧
      ∀ i ∈ lanes, execRegisterFile block i = expectedType (!f16)) ∧
    ∀ i, sync i = .dual ↔ ∃ f16 lanes, .copy f16 lanes ∈ ops ∧ i ∈ lanes

structure ContextOk (graph : FlowGraph) (ctx : Context) : Prop where
  two : ∀ id i, ctx.sync id i = .unknown ∨ ctx.sync id i = .dual
  twins : ∀ id, FileTwins (ctx.sync id)
  epilogue : ∀ block, Known graph block -> EpilogueOk block (ctx.sync block.id) (ctx.epilogue block.id)

lemma execRegisterFile_twins (block : BasicBlock) : FileTwins (execRegisterFile block) :=
  exec_twins (fun _ _ _ => rfl) block.instructions

variable {ctx : Context} {lanes : List Nat}

lemma mem_clobberedLanes {f16 : Bool} {i : Nat} :
    i ∈ clobberedLanes ctx target lanes f16 ↔
      i ∈ lanes ∧ execRegisterFile target i = expectedType (!f16) ∧ ctx.sync target.id i = .unknown := by
  simp [clobberedLanes]

lemma syncTarget_ok (ok : ContextOk graph ctx) (known : Known graph target) (twins : Twins lanes)
    (bounded : ∀ i ∈ lanes, i < 384) (f16 : Bool) : ContextOk graph (syncTarget ctx target lanes f16) := by
  have lanes_twins : Twins (clobberedLanes ctx target lanes f16) := by
    intro i j twin
    rw [mem_clobberedLanes, mem_clobberedLanes, twins i j twin, execRegisterFile_twins target i j twin,
      ok.twins target.id i j twin]
  refine ⟨fun id i => ?_, fun id i j twin => ?_, fun block same => ?_⟩
  · by_cases here : id = target.id
    · simp only [syncTarget, here, update_self]
      split
      · exact .inr rfl
      · exact ok.two _ i
    · simpa only [syncTarget, update_of_ne here] using ok.two id i
  · simp only [syncTarget, update_apply]
    split
    · simp only [lanes_twins i j twin, ok.twins target.id i j twin]
    · exact ok.twins id i j twin
  by_cases here : block.id = target.id
  · have equal := known_unique same known here
    subst equal
    obtain ⟨ops, emitted, sound, complete⟩ := ok.epilogue block known
    have added := matches_resolve lanes_twins
      (fun i member => bounded i (mem_clobberedLanes.mp member).1) f16
    refine ⟨ops ++ [.copy f16 (clobberedLanes ctx block lanes f16)], ?_, ?_, fun i => ?_⟩
    · simpa [syncTarget] using emitted.append added
    · intro op member
      rcases mem_append.mp member with old | new
      · exact sound op old
      · rw [mem_singleton] at new
        exact ⟨f16, _, new, fun i inside => (mem_clobberedLanes.mp inside).2.1⟩
    simp only [syncTarget, update_self, mem_append, mem_singleton, Op.copy.injEq]
    constructor
    · intro synced
      split at synced
      next inside => exact ⟨f16, _, .inr ⟨rfl, rfl⟩, inside⟩
      next =>
        obtain ⟨side, old, member, inside⟩ := (complete i).mp synced
        exact ⟨side, old, .inl member, inside⟩
    · rintro ⟨side, old, member | ⟨rfl, rfl⟩, inside⟩
      · rw [(complete i).mpr ⟨side, old, member, inside⟩, ite_self]
      · rw [if_pos inside]
  · simpa [syncTarget, update_of_ne here] using ok.epilogue block same

lemma syncTarget_sync (ok : ContextOk graph ctx) (known : Known graph target) (same : Known graph block)
    (lanes : List Nat) (f16 : Bool) (i : Nat) :
    (syncTarget ctx target lanes f16).sync block.id i = .dual ↔
      ctx.sync block.id i = .dual ∨
        i ∈ lanes ∧ execRegisterFile block i = expectedType (!f16) ∧ target = block := by
  by_cases here : block.id = target.id
  · have equal := known_unique same known here
    subst equal
    simp only [syncTarget, update_self, mem_clobberedLanes]
    rcases ok.two block.id i with fresh | synced
    · simp [fresh]
    · simp [synced]
  · have other : target ≠ block := fun equal => here (equal ▸ rfl)
    simp [syncTarget, update_of_ne here, other]

lemma lanesToSearch_twins (twins : Twins lanes) :
    Twins (lanesToSearch target lanes) := by
  intro i j twin
  simp only [lanesToSearch, mem_filter, decide_eq_true_eq]
  rw [twins i j twin, execRegisterFile_twins target i j twin]

def Searches (graph : FlowGraph) (f16 : Bool) (lanes : List Nat) (reaches : Nat -> BasicBlock -> Prop)
    (before after : Context) : Prop :=
  ContextOk graph after ∧ ∀ target i, Known graph target ->
    (after.sync target.id i = .dual ↔ before.sync target.id i = .dual ∨
      i ∈ lanes ∧ execRegisterFile target i = expectedType (!f16) ∧ reaches i target)

section

variable {f16 : Bool} {one two : Nat -> BasicBlock -> Prop}

lemma Searches.trans {first second third : Context}
    (now : Searches graph f16 lanes one first second) (later : Searches graph f16 lanes two second third) :
    Searches graph f16 lanes (fun i target => one i target ∨ two i target) first third := by
  refine ⟨later.1, fun target i same => ?_⟩
  rw [later.2 target i same, now.2 target i same, or_assoc, ← and_or_left, ← and_or_left]

lemma Searches.congr {before after : Context}
    (searches : Searches graph f16 lanes one before after) (same : ∀ i ∈ lanes, ∀ target, one i target ↔ two i target) :
    Searches graph f16 lanes two before after := by
  refine ⟨searches.1, fun target i known => ?_⟩
  rw [searches.2 target i known]
  exact or_congr_right (and_congr_right fun member => and_congr_right fun _ => same i member target)

end

section Follow

variable {graph : FlowGraph} {f16 : Bool} {lanes : List Nat}
  {search : Context -> BasicBlock -> List Nat -> Context}

def Deeper (graph : FlowGraph) (f16 : Bool) (search : Context -> BasicBlock -> List Nat -> Context)
    (target : BasicBlock) : Prop :=
  ∀ ctx lanes, ContextOk graph ctx -> Twins lanes -> (∀ i ∈ lanes, i < 384) ->
    Searches graph f16 lanes (fun i => Walk graph i target) ctx (search ctx target lanes)

lemma visitTarget_searches (ok : ContextOk graph ctx) (known : Known graph target) (twins : Twins lanes)
    (bounded : ∀ i ∈ lanes, i < 384) (deeper : Deeper graph f16 search target) :
    Searches graph f16 lanes
      (fun i other => target = other ∨ execRegisterFile target i = .unknown ∧ Walk graph i target other)
      ctx (visitTarget search lanes f16 ctx target) := by
  have synced : Searches graph f16 lanes (fun _ other => target = other) ctx
      (syncTarget ctx target lanes f16) :=
    ⟨syncTarget_ok ok known twins bounded f16,
      fun other i same => syncTarget_sync ok known same lanes f16 i⟩
  simp only [visitTarget]
  split
  next nothing =>
    refine synced.congr fun i member other => (or_iff_left ?_).symm
    rintro ⟨untouched, walk⟩
    rcases nothing with empty | none
    · have inside : i ∈ lanesToSearch target lanes := by simp [lanesToSearch, member, untouched]
      rw [empty] at inside
      cases inside
    · obtain ⟨next, follows, -⟩ := walk_iff.mp walk
      rw [none] at follows
      exact follows
  next =>
    have more := deeper _ (lanesToSearch target lanes) synced.1 (lanesToSearch_twins twins)
      fun i member => bounded i (mem_of_mem_filter member)
    refine synced.trans ⟨more.1, fun other i same => ?_⟩
    rw [more.2 other i same]
    simp only [lanesToSearch, mem_filter, decide_eq_true_eq]
    tauto

lemma followEdges_searches {edges : List FlowEdge} (ok : ContextOk graph ctx) (twins : Twins lanes)
    (bounded : ∀ i ∈ lanes, i < 384)
    (deeper : ∀ target, Follows graph block edges target -> Deeper graph f16 search target) :
    Searches graph f16 lanes
      (fun i target => ∃ next, Follows graph block edges next ∧
        (next = target ∨ execRegisterFile next i = .unknown ∧ Walk graph i next target))
      ctx (followEdges graph search block lanes f16 ctx edges) := by
  induction edges generalizing ctx with
  | nil => exact ⟨ok, fun target i _ => by simp [followEdges, Follows]⟩
  | cons edge rest ih =>
    have later := fun {ctx : Context} (ok : ContextOk graph ctx) =>
      ih ok fun target follows => deeper target (.inr follows)
    rw [followEdges]
    split
    next missing => simpa only [Follows, missing, reduceCtorEq, false_and, false_or] using later ok
    next first found =>
      split
      next anchor =>
        refine ⟨ok, fun target i _ => (or_iff_left ?_).symm⟩
        simp [Follows, found, anchor]
      next taken =>
        have follows_iff : ∀ next, Follows graph block (edge :: rest) next ↔
            first = next ∨ Follows graph block rest next := by
          intro next
          simp only [Follows, found, Option.some.injEq]
          constructor
          · rintro (⟨here, -⟩ | later)
            · exact .inl here
            · exact .inr later
          · rintro (rfl | later)
            · exact .inl ⟨rfl, taken⟩
            · exact .inr later
        have now := visitTarget_searches ok (find_known found).1 twins bounded
          (deeper first ((follows_iff first).mpr (.inl rfl)))
        refine (now.trans (later now.1)).congr fun i _ target => ?_
        simp only [follows_iff, or_and_right, exists_or, exists_eq_left']

end Follow

lemma insertBlockRegisterDependency_deeper (descending : Descending graph) (f16 : Bool) (fuel : Nat)
    (member : block ∈ graph) (enough : block.id ≤ fuel) :
    Deeper graph f16 (insertBlockRegisterDependency graph f16 fuel) block := by
  induction fuel generalizing block with
  | zero =>
    intro ctx lanes ok twins bounded
    refine ⟨ok, fun target i _ => (or_iff_left ?_).symm⟩
    rintro ⟨-, -, walk⟩
    obtain ⟨next, follows, -⟩ := walk_iff.mp walk
    have := follows_lower descending member follows
    omega
  | succ fuel ih =>
    intro ctx lanes ok twins bounded
    have searched : Searches graph f16 lanes _ ctx
        (insertBlockRegisterDependency graph f16 (fuel + 1) ctx block lanes) :=
      followEdges_searches ok twins bounded fun target follows => by
        have lower := follows_lower descending member follows
        exact ih (follows_known follows).2.1 (by omega)
    exact searched.congr fun i _ target => walk_iff.symm

def Added (graph : FlowGraph) (found : Bool -> Nat -> BasicBlock -> Prop) (before after : Context) : Prop :=
  ContextOk graph after ∧ ∀ target i, Known graph target ->
    (after.sync target.id i = .dual ↔ before.sync target.id i = .dual ∨
      ∃ f16, execRegisterFile target i = expectedType (!f16) ∧ found f16 i target)

lemma insertBlockDependencies_added (descending : Descending graph) (ok : ContextOk graph ctx)
    (member : block ∈ graph) :
    Added graph (fun f16 i target => ∃ ref ∈ inputList block,
        ref.reg.f16 = f16 ∧ i ∈ getRegisterFileRange ref ∧ Walk graph i block target)
      ctx (insertBlockDependencies graph ctx block) := by
  unfold insertBlockDependencies
  induction inputList block generalizing ctx with
  | nil => exact ⟨ok, fun target i _ => by simp⟩
  | cons ref rest ih =>
    have now := insertBlockRegisterDependency_deeper descending ref.reg.f16 block.id member le_rfl ctx
      (getRegisterFileRange ref) ok (range_twins ref) fun i inside => range_bounded inside
    have later := ih now.1
    refine ⟨later.1, fun target i same => ?_⟩
    rw [foldl_cons, later.2 target i same, now.2 target i same]
    simp only [mem_cons, exists_eq_or_imp, and_or_left, exists_or]
    rw [or_assoc]
    refine or_congr_right (or_congr_left ⟨?_, ?_⟩)
    · rintro ⟨inside, typed, walk⟩
      exact ⟨_, typed, rfl, inside, walk⟩
    · rintro ⟨f16, typed, rfl, inside, walk⟩
      exact ⟨inside, typed, walk⟩

lemma registerDependencyPass_spec (descending : Descending graph) :
    ContextOk graph (registerDependencyPass graph) ∧ ∀ target i, Known graph target ->
      ((registerDependencyPass graph).sync target.id i = .dual ↔
        ∃ f16, execRegisterFile target i = expectedType (!f16) ∧ Reached graph f16 i target) := by
  have general : ∀ (blocks : List BasicBlock) (ctx : Context), (∀ block ∈ blocks, block ∈ graph) ->
      ContextOk graph ctx ->
      Added graph (fun f16 i target => ∃ block ∈ blocks, ∃ ref ∈ inputList block,
          ref.reg.f16 = f16 ∧ i ∈ getRegisterFileRange ref ∧ Walk graph i block target)
        ctx (blocks.foldl (insertBlockDependencies graph) ctx) := by
    intro blocks
    induction blocks with
    | nil => exact fun ctx _ ok => ⟨ok, fun target i _ => by simp⟩
    | cons block rest ih =>
      intro ctx members ok
      rw [forall_mem_cons] at members
      have now := insertBlockDependencies_added descending ok members.1
      have later := ih _ members.2 now.1
      refine ⟨later.1, fun target i same => ?_⟩
      rw [foldl_cons, later.2 target i same, now.2 target i same]
      simp only [mem_cons, exists_eq_or_imp, and_or_left, exists_or, or_assoc]
  have start : ContextOk graph ⟨fun _ _ => .unknown, fun _ => []⟩ :=
    ⟨fun _ _ => .inl rfl, fun _ _ _ _ => rfl, fun block _ => ⟨[], matches_nil, by simp, by simp⟩⟩
  have whole := general graph.reverse _ (fun block => mem_reverse.mp) start
  refine ⟨whole.1, fun target i same => (whole.2 target i same).trans ?_⟩
  simp [Reached]

end EmuCore.Rsx.Fragment
