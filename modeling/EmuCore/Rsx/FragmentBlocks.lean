import EmuCore.Rsx.FragmentGraph

namespace EmuCore.Rsx.Fragment

open List

variable {id : Nat} {change : BasicBlock -> BasicBlock}

namespace FlowGraph

def ids (graph : FlowGraph) : List Nat := graph.map (·.id)

def view {α : Type} (graph : FlowGraph) (part : BasicBlock -> List α) (x : Nat) : List α :=
  (graph.find x).elim [] part

variable {α : Type} {graph : FlowGraph}

lemma find_isSome {x : Nat} : (graph.find x).isSome ↔ x ∈ graph.ids := by
  simp [find, ids]

lemma find_none {x : Nat} : graph.find x = none ↔ x ∉ graph.ids := by
  rw [← find_isSome, Bool.not_eq_true, Option.isSome_eq_false_iff, Option.isNone_iff_eq_none]

lemma find_eq_some_iff (nodup : graph.ids.Nodup) {x : Nat} {block : BasicBlock} :
    graph.find x = some block ↔ block ∈ graph ∧ block.id = x := by
  constructor
  · intro found
    exact ⟨mem_of_find?_eq_some found, by simpa using find?_some found⟩
  rintro ⟨member, rfl⟩
  cases found : graph.find block.id with
  | none => exact absurd (mem_map_of_mem member) (find_none.mp found)
  | some other =>
    have same : other.id = block.id := by simpa using find?_some found
    rw [inj_on_of_nodup_map nodup (mem_of_find?_eq_some found) member same]

variable (keeps : ∀ block, (change block).id = block.id)

include keeps

lemma find_modify (x : Nat) :
    (graph.modify id change).find x =
      (graph.find x).map fun block => if block.id = id then change block else block := by
  rw [find, modify, find?_map, find]
  congr 2
  funext block
  simp only [Function.comp]
  split <;> simp [keeps]

lemma ids_modify :
    (graph.modify id change).ids = graph.ids := by
  rw [ids, modify, map_map, ids]
  refine map_congr_left fun block _ => ?_
  simp only [Function.comp]
  split <;> simp [keeps]

lemma view_modify {part : BasicBlock -> List α} {tail : List α}
    (adds : ∀ block, part (change block) = part block ++ tail) (member : id ∈ graph.ids) (x : Nat) :
    (graph.modify id change).view part x = graph.view part x ++ if x = id then tail else [] := by
  rw [view, find_modify keeps, view]
  cases found : graph.find x with
  | none =>
    have other : x ≠ id := fun same => find_none.mp found (same ▸ member)
    simp [other]
  | some block =>
    have same : block.id = x := by simpa using find?_some found
    simp only [Option.map_some, Option.elim_some, same]
    split <;> simp [adds]

lemma view_modify_same {part : BasicBlock -> List α}
    (same : ∀ block, part (change block) = part block) (x : Nat) :
    (graph.modify id change).view part x = graph.view part x := by
  rw [view, find_modify keeps, view]
  cases graph.find x with
  | none => rfl
  | some block =>
    simp only [Option.map_some, Option.elim_some]
    split <;> simp [same]

omit keeps

lemma view_append_empty {part : BasicBlock -> List α} (empty : part ⟨id, [], [], []⟩ = []) (x : Nat) :
    view (graph ++ [⟨id, [], [], []⟩]) part x = graph.view part x := by
  simp only [view, find, find?_append]
  cases List.find? (fun block => decide (block.id = x)) graph with
  | some block => rfl
  | none =>
    simp only [Option.none_or, find?_singleton]
    split <;> simp [empty]

end FlowGraph

structure Adds (before after : FlowGraph) (parent succ : Nat) (type : EdgeType) (id : Nat) : Prop where
  ids : ∀ x, x ∈ after.ids ↔ x ∈ before.ids ∨ x = id
  nodup : before.ids.Nodup -> after.ids.Nodup
  pred : ∀ x, after.view (·.pred) x = before.view (·.pred) x ++ if x = succ then [⟨type, parent, succ⟩] else []
  succ : ∀ x, after.view (·.succ) x =
    before.view (·.succ) x ++ if x = parent then [⟨type, parent, succ⟩] else []
  instructions : ∀ x, after.view (·.instructions) x = before.view (·.instructions) x

variable {parent succ : Nat}

lemma insertEdge_adds {graph : FlowGraph} (type : EdgeType) (from_known : parent ∈ graph.ids)
    (to_known : succ ∈ graph.ids) (known : id ∈ graph.ids) :
    Adds graph (graph.insertEdge parent succ type) parent succ type id := by
  have ids : (graph.insertEdge parent succ type).ids = graph.ids := by
    rw [FlowGraph.insertEdge, FlowGraph.ids_modify (by intro; rfl), FlowGraph.ids_modify (by intro; rfl)]
  refine ⟨fun x => ?_, fun nodup => ids ▸ nodup, fun x => ?_, fun x => ?_, fun x => ?_⟩
  · rw [ids]
    exact ⟨.inl, fun either => either.elim (fun old => old) fun new => new ▸ known⟩
  · rw [FlowGraph.insertEdge, FlowGraph.view_modify (by intro; rfl) (by intro; rfl)
      (by rwa [FlowGraph.ids_modify (by intro; rfl)]), FlowGraph.view_modify_same (by intro; rfl) (by intro; rfl)]
  · rw [FlowGraph.insertEdge, FlowGraph.view_modify_same (by intro; rfl) (by intro; rfl),
      FlowGraph.view_modify (by intro; rfl) (by intro; rfl) from_known]
  · rw [FlowGraph.insertEdge, FlowGraph.view_modify_same (by intro; rfl) (by intro; rfl),
      FlowGraph.view_modify_same (by intro; rfl) (by intro; rfl)]

lemma push_adds {graph : FlowGraph} (type : EdgeType) (from_known : parent ∈ graph.ids) (new : id ∉ graph.ids) :
    Adds graph (graph.push parent id type) parent id type id := by
  have ids : ∀ x, x ∈ FlowGraph.ids (graph ++ [⟨id, [], [], []⟩]) ↔ x ∈ graph.ids ∨ x = id := by
    simp [FlowGraph.ids]
  have edge := insertEdge_adds type ((ids parent).mpr (.inl from_known)) ((ids id).mpr (.inr rfl))
    ((ids id).mpr (.inr rfl))
  refine ⟨fun x => ?_, fun nodup => edge.nodup ?_, fun x => ?_, fun x => ?_, fun x => ?_⟩
  · rw [FlowGraph.push, edge.ids, ids, or_assoc, or_self]
  · rw [FlowGraph.ids, map_append, nodup_append]
    exact ⟨nodup, by simp, fun a old b last => by
      rw [map_singleton, mem_singleton] at last
      rintro rfl
      have same : a = id := last
      exact new (same ▸ old)⟩
  · rw [FlowGraph.push, edge.pred, FlowGraph.view_append_empty rfl]
  · rw [FlowGraph.push, edge.succ, FlowGraph.view_append_empty rfl]
  · rw [FlowGraph.push, edge.instructions, FlowGraph.view_append_empty rfl]

def exitAlong (edges : List FlowEdge) (type : EdgeType) : Option Nat :=
  (edges.find? fun edge => edge.type = type).map (·.target)

lemma exitOf_eq (blocks : FlowGraph) (id : Nat) (type : EdgeType) :
    Builder.exitOf blocks id type = exitAlong (blocks.view (·.succ) id) type := by
  rw [Builder.exitOf, FlowGraph.view]
  cases blocks.find id <;> rfl

variable {type : EdgeType}

section

variable {edges : List FlowEdge} {x : Nat} (known : exitAlong edges type = some x)

include known

lemma exitAlong_append
    (more : List FlowEdge) :
    exitAlong (edges ++ more) type = some x := by
  unfold exitAlong at known ⊢
  rw [find?_append]
  cases found : edges.find? fun edge => edge.type = type with
  | none => simp [found] at known
  | some edge => simpa [found] using known

lemma exitAlong_mem :
    ∃ edge ∈ edges, edge.target = x := by
  obtain ⟨edge, found, rfl⟩ := Option.map_eq_some_iff.mp known
  exact ⟨edge, mem_of_find?_eq_some found, rfl⟩

end

def closing : EdgeType -> Option EdgeType
  | .if | .else => some .endif
  | .loop => some .endloop
  | _ => none

structure Wired (blocks : FlowGraph) (bb : Nat) : Prop where
  nodup : blocks.ids.Nodup
  here : bb ∈ blocks.ids
  targets : ∀ x, ∀ edge ∈ blocks.view (·.succ) x, edge.target ∈ blocks.ids
  lower : ∀ x, ∀ edge ∈ blocks.view (·.pred) x, edge.source < x
  left : ∀ x, blocks.view (·.succ) x ≠ [] -> x < bb
  exits : ∀ x, ∀ edge ∈ blocks.view (·.pred) x, ∀ type, closing edge.type = some type ->
    ∃ after, exitAlong (blocks.view (·.succ) edge.source) type = some after ∧ x < after

lemma Wired.empty : Wired Builder.empty.blocks Builder.empty.bb := by
  have nothing : ∀ {α : Type} (part : BasicBlock -> List α) (x : Nat), part ⟨0, [], [], []⟩ = [] ->
      Builder.empty.blocks.view part x = [] := by
    intro α part x none
    simp only [FlowGraph.view, FlowGraph.find, Builder.empty, find?_singleton]
    split <;> simp [none]
  refine ⟨by simp [FlowGraph.ids, Builder.empty], by simp [FlowGraph.ids, Builder.empty],
    fun x edge member => ?_, fun x edge member => ?_, fun x some_edge => ?_, fun x edge member => ?_⟩
  · rw [nothing _ x rfl] at member
    cases member
  · rw [nothing _ x rfl] at member
    cases member
  · exact absurd (nothing _ x rfl) some_edge
  · rw [nothing _ x rfl] at member
    cases member

lemma mem_append_ite {α : Type} {edge new : α} {edges : List α} {p : Prop} [Decidable p]
    (member : edge ∈ edges ++ if p then [new] else []) : edge ∈ edges ∨ p ∧ edge = new := by
  rcases mem_append.mp member with old | added
  · exact .inl old
  · split at added
    next here => exact .inr ⟨here, mem_singleton.mp added⟩
    next => cases added

lemma closeBlock_cases (blocks : FlowGraph) (bb : Nat) (wired : Wired blocks bb) :
    Builder.closeBlock blocks bb = blocks ∨
      ∃ after type, bb < after ∧ after ∈ blocks.ids ∧ (type = .endif ∨ type = .endloop) ∧
        Builder.closeBlock blocks bb = blocks.insertEdge bb after type := by
  have close {block : BasicBlock} {front : FlowEdge} (type : EdgeType) (found : blocks.find bb = some block)
      (first : block.pred.find? (fun edge => edge.type ≠ .endif ∧ edge.type ≠ .endloop) = some front)
      (closes : closing front.type = some type) :
      ∃ after, bb < after ∧ after ∈ blocks.ids ∧ Builder.exitOf blocks front.source type = some after := by
    have inside : front ∈ blocks.view (·.pred) bb := by
      rw [FlowGraph.view, found]
      exact mem_of_find?_eq_some first
    obtain ⟨after, leads, above⟩ := wired.exits bb front inside type closes
    obtain ⟨edge, member, rfl⟩ := exitAlong_mem leads
    exact ⟨_, above, wired.targets _ edge member, (exitOf_eq ..).trans leads⟩
  fun_cases Builder.closeBlock blocks bb with
  | case3 block found front first shut kind | case4 block found front first shut kind =>
    obtain ⟨after, above, known, leads⟩ := close .endif found first (by rw [kind]; rfl)
    exact .inr ⟨after, .endif, above, known, .inl rfl, by simp only [shut, leads]⟩
  | case5 block found front first shut kind =>
    obtain ⟨after, above, known, leads⟩ := close .endloop found first (by rw [kind]; rfl)
    exact .inr ⟨after, .endloop, above, known, .inr rfl, by simp only [shut, leads]⟩
  | _ => exact .inl rfl

variable {before after : FlowGraph}

lemma Adds.targets (adds : Adds before after parent succ type id) (known : succ ∈ after.ids)
    (old : ∀ x, ∀ edge ∈ before.view (·.succ) x, edge.target ∈ before.ids) (x : Nat) :
    ∀ edge ∈ after.view (·.succ) x, edge.target ∈ after.ids := by
  intro edge member
  rw [adds.succ] at member
  rcases mem_append_ite member with member | ⟨-, rfl⟩
  · exact (adds.ids _).mpr (.inl (old x edge member))
  · exact known

lemma Adds.lower (adds : Adds before after parent succ type id) (above : parent < succ)
    (old : ∀ x, ∀ edge ∈ before.view (·.pred) x, edge.source < x) (x : Nat) :
    ∀ edge ∈ after.view (·.pred) x, edge.source < x := by
  intro edge member
  rw [adds.pred] at member
  rcases mem_append_ite member with member | ⟨rfl, rfl⟩
  · exact old x edge member
  · exact above

structure Opening (blocks : FlowGraph) (parent : Nat) (kind : EdgeType) (limit : Nat) : Prop where
  nodup : blocks.ids.Nodup
  here : parent ∈ blocks.ids
  targets : ∀ x, ∀ edge ∈ blocks.view (·.succ) x, edge.target ∈ blocks.ids
  lower : ∀ x, ∀ edge ∈ blocks.view (·.pred) x, edge.source < x
  left : ∀ x, blocks.view (·.succ) x ≠ [] -> x ≤ parent
  unclosed : exitAlong (blocks.view (·.succ) parent) kind = none
  exits : ∀ x, ∀ edge ∈ blocks.view (·.pred) x, ∀ type, closing edge.type = some type ->
    (∃ after, exitAlong (blocks.view (·.succ) edge.source) type = some after ∧ x < after) ∨
      edge.source = parent ∧ type = kind ∧ x < limit

variable {blocks : FlowGraph}

lemma Wired.opening (wired : Wired blocks parent) (kind : EdgeType) (limit : Nat) :
    Opening blocks parent kind limit := by
  have none : blocks.view (·.succ) parent = [] := by
    by_contra some_edge
    exact lt_irrefl _ (wired.left parent some_edge)
  exact ⟨wired.nodup, wired.here, wired.targets, wired.lower,
    fun x some_edge => (wired.left x some_edge).le, by rw [none]; rfl,
    fun x edge member type closes => .inl (wired.exits x edge member type closes)⟩

lemma Opening.enter {limit : Nat} {kind : EdgeType} (opening : Opening before parent kind limit)
    (adds : Adds before after parent succ type succ) (above : parent < succ) (below : succ < limit)
    (closes : closing type = some kind) :
    Opening after parent kind limit := by
  refine ⟨adds.nodup opening.nodup, (adds.ids _).mpr (.inl opening.here),
    adds.targets ((adds.ids succ).mpr (.inr rfl)) opening.targets, adds.lower above opening.lower,
    fun x some_edge => ?_, ?_, fun x edge member wanted same => ?_⟩
  · by_cases own : x = parent
    · exact own.le
    · rw [adds.succ, if_neg own, append_nil] at some_edge
      exact opening.left x some_edge
  · have other : type ≠ kind := by
      rintro rfl
      revert closes
      cases type <;> decide
    have before_none := opening.unclosed
    rw [adds.succ, if_pos rfl]
    unfold exitAlong at before_none ⊢
    rw [Option.map_eq_none_iff] at before_none
    rw [find?_append, before_none]
    simp [other]
  · rw [adds.pred] at member
    rcases mem_append_ite member with old | ⟨rfl, rfl⟩
    · rcases opening.exits x edge old wanted same with ⟨target, leads, higher⟩ | later
      · exact .inl ⟨target, by rw [adds.succ]; exact exitAlong_append leads _, higher⟩
      · exact .inr later
    · rw [closes] at same
      exact .inr ⟨rfl, (Option.some.inj same).symm, below⟩

lemma Opening.close {limit bb : Nat} {kind : EdgeType} (opening : Opening before parent kind limit)
    (adds : Adds before after parent succ kind id) (above : parent < succ) (high : limit ≤ succ)
    (known : succ ∈ after.ids) (plain : closing kind = none) (next : parent < bb) (here : bb ∈ after.ids) :
    Wired after bb := by
  refine ⟨adds.nodup opening.nodup, here, adds.targets known opening.targets, adds.lower above opening.lower,
    fun x some_edge => ?_, fun x edge member wanted same => ?_⟩
  · by_cases own : x = parent
    · exact own ▸ next
    · rw [adds.succ, if_neg own, append_nil] at some_edge
      exact (opening.left x some_edge).trans_lt next
  rw [adds.pred] at member
  rcases mem_append_ite member with old | ⟨rfl, rfl⟩
  · rcases opening.exits x edge old wanted same with ⟨target, leads, higher⟩ | ⟨rfl, rfl, lower⟩
    · exact ⟨target, by rw [adds.succ]; exact exitAlong_append leads _, higher⟩
    refine ⟨succ, ?_, lower.trans_le high⟩
    have before_none := opening.unclosed
    rw [adds.succ, if_pos rfl]
    unfold exitAlong at before_none ⊢
    rw [Option.map_eq_none_iff] at before_none
    rw [find?_append, before_none]
    simp
  · rw [plain] at same
    cases same

-- An edge that opens nothing closes what was never opened.
lemma Adds.wired {bb : Nat} (adds : Adds before after parent succ type id) (wired : Wired before parent)
    (above : parent < succ) (known : succ ∈ after.ids) (plain : closing type = none) (next : parent < bb)
    (here : bb ∈ after.ids) :
    Wired after bb :=
  (wired.opening type 0).close adds above (Nat.zero_le _) known plain next here

lemma safeInsertBlock_new (type : EdgeType) (from_known : parent ∈ blocks.ids) (new : id ∉ blocks.ids) :
    Adds blocks (Builder.safeInsertBlock blocks parent id type) parent id type id := by
  rw [Builder.safeInsertBlock, FlowGraph.find_none.mpr new]
  exact push_adds type from_known new

lemma safeInsertBlock_end (opening : Opening blocks parent type id) :
    ∃ succ, id ≤ succ ∧ succ ∈ (Builder.safeInsertBlock blocks parent id type).ids ∧
      Adds blocks (Builder.safeInsertBlock blocks parent id type) parent succ type id := by
  by_cases known : id ∈ blocks.ids
  · obtain ⟨found, lookup⟩ := Option.isSome_iff_exists.mp (FlowGraph.find_isSome.mpr known)
    have insert : ∀ succ, id ≤ succ -> succ ∈ blocks.ids ->
        Builder.safeInsertBlock blocks parent id type = blocks.insertEdge parent succ type ->
        ∃ succ, id ≤ succ ∧ succ ∈ (Builder.safeInsertBlock blocks parent id type).ids ∧
          Adds blocks (Builder.safeInsertBlock blocks parent id type) parent succ type id := by
      intro succ high inside same
      have adds := insertEdge_adds type opening.here inside known
      rw [same]
      exact ⟨succ, high, (adds.ids succ).mpr (.inl inside), adds⟩
    by_cases skip : found.isOfType .else = true ∧ (type = .endif ∨ type = .endloop)
    · have single := skip.1
      simp only [BasicBlock.isOfType, Bool.and_eq_true, beq_iff_eq, Option.map_eq_some_iff] at single
      obtain ⟨-, edge, head, kind⟩ := single
      have inside : edge ∈ blocks.view (·.pred) id := by
        rw [FlowGraph.view, lookup]
        exact mem_of_mem_head? head
      obtain ⟨after, leads, higher⟩ | ⟨-, -, impossible⟩ :=
        opening.exits id edge inside .endif (by rw [kind]; rfl)
      · obtain ⟨out, member, rfl⟩ := exitAlong_mem leads
        refine insert out.target higher.le (opening.targets _ out member) ?_
        rw [Builder.safeInsertBlock, lookup]
        simp only [skip, head, exitOf_eq, Option.bind_some, and_self, if_true]
        rw [leads, Option.getD_some]
      · exact absurd impossible (lt_irrefl _)
    · refine insert id le_rfl known ?_
      rw [Builder.safeInsertBlock, lookup]
      simp only [if_neg skip]
  · have adds := safeInsertBlock_new type opening.here known
    exact ⟨id, le_rfl, (adds.ids id).mpr (.inr rfl), adds⟩

end EmuCore.Rsx.Fragment
