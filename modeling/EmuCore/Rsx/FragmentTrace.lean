import EmuCore.Rsx.FragmentRun
import EmuCore.Rsx.RegisterWalk

namespace EmuCore.Rsx.Fragment

open List

def Within (low high : Nat) (fetch : Nat × Word) : Prop :=
  low ≤ fetch.1 ∧ fetch.1 < high ∧ fetch.2.Ordered fetch.1 ∧ ∀ x ∈ fetch.2.targets fetch.1, x ≤ high

lemma Within.mono {low high start last : Nat} {fetch : Nat × Word} (within : Within low high fetch)
    (before : start ≤ low) (after : high ≤ last) : Within start last fetch :=
  ⟨before.trans within.1, within.2.1.trans_le after, within.2.2.1, fun x target =>
    (within.2.2.2 x target).trans after⟩

namespace Program

variable (program : Program)

include program

lemma compile_laid (pc : Nat) {after : Code} (laid : Laid (pc + program.size) after) :
    Laid pc (program.compile pc ++ after) := by
  induction program generalizing pc after with
  | done => exact laid
  | nop literal rest ih | op operation rest ih =>
    refine ⟨rfl, ih _ ?_⟩
    rwa [size, ← add_assoc] at laid
  | ite positive negative rest ih_positive ih_negative ih_rest =>
    rw [compile, cons_append, append_assoc, append_assoc]
    refine ⟨rfl, ih_positive _ (ih_negative _ (ih_rest _ ?_))⟩
    simpa [size, Word.size, add_assoc] using laid
  | loop body rest ih_body ih_rest =>
    rw [compile, cons_append, append_assoc]
    refine ⟨rfl, ih_body _ (ih_rest _ ?_)⟩
    simpa [size, Word.size, add_assoc] using laid

lemma compile_within (pc : Nat) : ∀ fetch ∈ program.compile pc, Within pc (pc + program.size) fetch := by
  induction program generalizing pc with
  | done => simp [compile]
  | nop literal rest ih | op operation rest ih =>
    refine forall_mem_cons.mpr ⟨⟨le_rfl, ?_, trivial, by simp [Word.targets]⟩, fun fetch member =>
      (ih _ fetch member).mono (by omega) (by simp only [size]; omega)⟩
    exact Nat.lt_add_of_pos_right (Nat.add_pos_left (Word.size_pos _) _)
  | ite positive negative rest ih_positive ih_negative ih_rest =>
    rw [compile, forall_mem_cons]
    simp only [size]
    refine ⟨⟨le_rfl, by omega, ⟨by omega, by omega⟩, fun x target => ?_⟩, fun fetch member => ?_⟩
    · have := mem_targets target
      omega
    simp only [mem_append] at member
    rcases member with member | member | member
    · exact (ih_positive _ fetch member).mono (by omega) (by omega)
    · exact (ih_negative _ fetch member).mono (by omega) (by omega)
    · exact (ih_rest _ fetch member).mono (by omega) (by omega)
  | loop body rest ih_body ih_rest =>
    rw [compile, forall_mem_cons]
    simp only [size]
    refine ⟨⟨le_rfl, by omega, by simp only [Word.Ordered]; omega, fun x target => ?_⟩, fun fetch member => ?_⟩
    · rw [targets_loop] at target
      have := mem_targets target
      omega
    · simp only [mem_append] at member
      rcases member with member | member
      · exact (ih_body _ fetch member).mono (by omega) (by omega)
      · exact (ih_rest _ fetch member).mono (by omega) (by omega)

lemma compile_apart (pc : Nat) {inner : Nat × Word} (after : pc + program.size ≤ inner.1) :
    ∀ outer ∈ program.compile pc, ∀ x ∈ outer.2.targets outer.1, inner.1 < x ->
      ∀ y ∈ inner.2.targets inner.1, y ≤ x := by
  intro outer member x target above
  have := (program.compile_within pc outer member).2.2.2 x target
  omega

lemma compile_inside (pc : Nat) :
    (program.compile pc).Pairwise fun outer inner => ∀ x ∈ outer.2.targets outer.1, inner.1 < x ->
      ∀ y ∈ inner.2.targets inner.1, y ≤ x := by
  induction program generalizing pc with
  | done => exact List.Pairwise.nil
  | nop literal rest ih | op operation rest ih => exact pairwise_cons.mpr ⟨by simp [Word.targets], ih _⟩
  | ite positive negative rest ih_positive ih_negative ih_rest =>
    refine pairwise_cons.mpr ⟨fun inner member x target above y inside => ?_, ?_⟩
    · have := mem_targets target
      simp only [mem_append] at member
      rcases member with member | member | member
      · obtain ⟨low, high, -, bound⟩ := positive.compile_within _ inner member
        have := bound y inside
        omega
      · obtain ⟨low, high, -, bound⟩ := negative.compile_within _ inner member
        have := bound y inside
        omega
      · obtain ⟨low, -, -, -⟩ := rest.compile_within _ inner member
        omega
    · refine pairwise_append.mpr ⟨ih_positive _, pairwise_append.mpr ⟨ih_negative _, ih_rest _, ?_⟩, ?_⟩
      · exact fun outer first inner second =>
          negative.compile_apart _ (rest.compile_within _ inner second).1 outer first
      intro outer first inner second
      refine positive.compile_apart _ ?_ outer first
      rcases mem_append.mp second with second | second
      · exact (negative.compile_within _ inner second).1
      · have := (rest.compile_within _ inner second).1
        omega
  | loop body rest ih_body ih_rest =>
    refine pairwise_cons.mpr ⟨fun inner member x target above y inside => ?_, ?_⟩
    · rw [targets_loop] at target
      have := mem_targets target
      simp only [mem_append] at member
      rcases member with member | member
      · obtain ⟨low, high, -, bound⟩ := body.compile_within _ inner member
        have := bound y inside
        omega
      · obtain ⟨low, -, -, -⟩ := rest.compile_within _ inner member
        omega
    · refine pairwise_append.mpr ⟨ih_body _, ih_rest _, ?_⟩
      exact fun outer first inner second =>
        body.compile_apart _ (rest.compile_within _ inner second).1 outer first

lemma compile_nested (pc : Nat) : Nested (program.compile pc) :=
  ⟨fun fetch member => (program.compile_within pc fetch member).2.2.1, program.compile_inside pc⟩

end Program

variable {code : Code} {pc : Nat}

lemma run_eq_foldl (laid : Laid pc code) (st : Builder) :
    Builder.run pc (code.map (·.2)) st = code.foldl (fun st fetch => st.step fetch.1 fetch.2) st := by
  induction code generalizing pc st with
  | nil => rfl
  | cons fetch rest ih =>
    obtain ⟨rfl, later⟩ := laid
    exact ih later _

def trailing (starts : List Nat) (code : Code) : List Instruction :=
  (code.takeWhile fun fetch => fetch.1 ∉ starts).filterMap fun fetch => fetch.2.instruction fetch.1

lemma trailing_cons (starts : List Nat) (fetch : Nat × Word) (rest : Code) :
    trailing starts (fetch :: rest) =
      if fetch.1 ∈ starts then [] else (fetch.2.instruction fetch.1).toList ++ trailing starts rest := by
  unfold trailing
  by_cases start : fetch.1 ∈ starts
  · simp [start]
  · rw [takeWhile_cons_of_pos (by simp [start]), if_neg start, filterMap_cons]
    cases fetch.2.instruction fetch.1 <;> rfl

variable {starts : List Nat}

lemma trailing_start (laid : Laid pc code) (start : pc ∈ starts) : trailing starts code = [] := by
  cases code with
  | nil => rfl
  | cons fetch rest => rw [trailing_cons, laid.1, if_pos start]

def Divides (starts : List Nat) (code : Code) (content : Nat -> List Instruction) : Prop :=
  (∀ x, x ∉ starts -> content x = []) ∧
    ∀ fetch rest, fetch :: rest <:+ code -> fetch.1 ∈ starts ->
      content fetch.1 = (fetch.2.instruction fetch.1).toList ++ trailing starts rest

lemma contribution_away {bb x : Nat} (other : bb ≠ x) (later : ∀ fetch ∈ code, x < fetch.1) :
    contribution starts bb code x = [] := by
  induction code generalizing bb with
  | nil => rfl
  | cons fetch rest ih =>
    rw [forall_mem_cons] at later
    have moved : (if fetch.1 ∈ starts then fetch.1 else bb) ≠ x := by
      split
      · exact later.1.ne'
      · exact other
    rw [contribution, if_neg moved.symm, ih moved later.2]
    rfl

lemma contribution_self {x : Nat} (later : ∀ fetch ∈ code, x < fetch.1) :
    contribution starts x code x = trailing starts code := by
  induction code with
  | nil => rfl
  | cons fetch rest ih =>
    rw [forall_mem_cons] at later
    rw [contribution, trailing_cons]
    by_cases start : fetch.1 ∈ starts
    · simp only [if_pos start]
      rw [if_neg later.1.ne, contribution_away later.1.ne' later.2]
      rfl
    · simp only [if_neg start, if_true]
      rw [ih later.2]

variable {fetch : Nat × Word}

lemma contribution_here {before : Code} {rest : Code} {bb : Nat} (start : fetch.1 ∈ starts)
    (earlier : ∀ other ∈ before, other.1 ≠ fetch.1) (current : before = [] ∨ bb ≠ fetch.1)
    (later : ∀ other ∈ rest, fetch.1 < other.1) :
    contribution starts bb (before ++ fetch :: rest) fetch.1 =
      (fetch.2.instruction fetch.1).toList ++ trailing starts rest := by
  induction before generalizing bb with
  | nil =>
    rw [nil_append, contribution, if_pos start]
    simp only [if_true]
    rw [contribution_self later]
  | cons other before ih =>
    rw [forall_mem_cons] at earlier
    have moved : (if other.1 ∈ starts then other.1 else bb) ≠ fetch.1 := by
      split
      · exact earlier.1
      · exact current.resolve_left (by simp)
    rw [cons_append, contribution, if_neg moved.symm, ih earlier.2 (.inr moved)]
    rfl

lemma laid_split {before : Code} {rest : Code} (laid : Laid pc (before ++ fetch :: rest)) :
    pc ≤ fetch.1 ∧ (before = [] ∨ pc < fetch.1) ∧ (∀ other ∈ before, other.1 < fetch.1) ∧
      ∀ other ∈ rest, fetch.1 < other.1 := by
  induction before generalizing pc with
  | nil =>
    obtain ⟨rfl, later⟩ := laid
    refine ⟨le_rfl, .inl rfl, by simp, fun other member => ?_⟩
    have := laid_above later other member
    have := fetch.2.size_pos
    omega
  | cons first before ih =>
    obtain ⟨rfl, later⟩ := laid
    obtain ⟨low, -, earlier, after⟩ := ih later
    have := first.2.size_pos
    refine ⟨by omega, .inr (by omega), forall_mem_cons.mpr ⟨by omega, earlier⟩, after⟩

variable {trace : Code}

namespace Program

lemma size_eq_zero {program : Program} (zero : program.size = 0) : program = .done := by
  cases program with
  | done => rfl
  | nop literal rest | op operation rest => exact absurd zero (Nat.add_pos_left (Word.size_pos _) _).ne'
  | ite positive negative rest | loop body rest =>
    simp only [size] at zero
    omega

lemma instructions_append (first second : Code) : instructions (first ++ second) = instructions first ++ instructions second :=
  filterMap_append

lemma trace_cons {rest : Code} {content : Nat -> List Instruction} (divides : Divides starts code content) (placed : fetch :: rest <:+ code)
    (later : instructions trace =
      trailing starts rest ++ trace.flatMap fun fetch => content fetch.1) :
    instructions (fetch :: trace) =
      trailing starts (fetch :: rest) ++ (fetch :: trace).flatMap fun fetch => content fetch.1 := by
  have here : instructions (fetch :: trace) = (fetch.2.instruction fetch.1).toList ++ instructions trace := by
    rw [instructions, filterMap_cons]
    cases fetch.2.instruction fetch.1 <;> rfl
  rw [here, later, trailing_cons, flatMap_cons]
  by_cases start : fetch.1 ∈ starts
  · rw [if_pos start, divides.2 fetch rest placed start]
    simp only [nil_append, append_assoc]
  · rw [if_neg start, divides.1 fetch.1 start]
    simp only [nil_append, append_assoc]

lemma trace_blocks {content : Nat -> List Instruction} (divides : Divides starts code content)
    (targets : ∀ fetch ∈ code, ∀ x ∈ fetch.2.targets fetch.1, x ∈ starts) (program : Program) {after : Code}
    (placed : program.compile pc ++ after <:+ code) (laid : Laid (pc + program.size) after)
    (bounded : trailing starts after = []) (traced : program.Trace pc trace) :
    instructions trace =
      trailing starts (program.compile pc ++ after) ++ trace.flatMap fun fetch => content fetch.1 := by
  induction program generalizing pc after trace with
  | done =>
    rw [Trace] at traced
    rw [traced, compile, nil_append, bounded]
    rfl
  | nop literal rest ih | op operation rest ih =>
    obtain ⟨trace, rfl, traced⟩ := traced
    rw [size, ← add_assoc] at laid
    rw [compile, cons_append] at placed ⊢
    exact trace_cons divides placed (ih ((suffix_cons _ _).trans placed) laid bounded traced)
  | ite positive negative rest ih_positive ih_negative ih_rest =>
    obtain ⟨inside, trace, rfl, taken, traced⟩ := traced
    rw [show pc + (ite positive negative rest).size = pc + 1 + positive.size + negative.size + rest.size by
      simp only [size]; omega] at laid
    rw [compile, cons_append, append_assoc, append_assoc] at placed ⊢
    have rest_laid := rest.compile_laid _ laid
    have negative_laid := negative.compile_laid _ rest_laid
    have positive_laid := positive.compile_laid _ negative_laid
    have positive_placed := (suffix_cons _ _).trans placed
    have negative_placed := (suffix_append _ _).trans positive_placed
    have rest_placed := (suffix_append _ _).trans negative_placed
    have after_trace := ih_rest rest_placed laid bounded traced
    refine trace_cons divides placed ?_
    by_cases empty : positive.size + negative.size = 0
    · obtain rfl := size_eq_zero (show positive.size = 0 by omega)
      obtain rfl := size_eq_zero (show negative.size = 0 by omega)
      have nothing : inside = [] := by simpa [Trace] using taken
      simpa [nothing, compile] using after_trace
    have starting := targets _ (placed.mem mem_cons_self)
    simp only [Word.targets, if_neg (show ¬pc + 1 + positive.size + negative.size = pc + 1 by omega)] at starting
    have body : pc + 1 ∈ starts := starting _ (by split <;> simp)
    have ending : pc + 1 + positive.size + negative.size ∈ starts := starting _ (by split <;> simp)
    have middle : pc + 1 + positive.size ∈ starts := by
      by_cases hasElse : pc + 1 + positive.size ≠ pc + 1 ∧
          pc + 1 + positive.size + negative.size ≠ pc + 1 + positive.size
      · exact starting _ (by rw [if_pos hasElse]; simp)
      · rcases Decidable.not_and_iff_not_or_not.mp hasElse with same | same
        · rwa [Decidable.not_not.mp same]
        · rwa [Decidable.not_not.mp same] at ending
    have inside_trace : instructions inside = inside.flatMap fun fetch => content fetch.1 := by
      rcases taken with taken | taken
      · have whole := ih_positive positive_placed negative_laid (trailing_start negative_laid middle) taken
        rwa [trailing_start positive_laid body] at whole
      · have whole := ih_negative negative_placed rest_laid (trailing_start rest_laid ending) taken
        rwa [trailing_start negative_laid middle] at whole
    rw [trailing_start rest_laid ending] at after_trace
    rw [trailing_start positive_laid body, instructions_append, flatMap_append, inside_trace,
      after_trace]
    rfl
  | loop body rest ih_body ih_rest =>
    obtain ⟨inside, trace, rfl, taken, traced⟩ := traced
    rw [show pc + (loop body rest).size = pc + 1 + body.size + rest.size by
      simp only [size]; omega] at laid
    rw [compile, cons_append, append_assoc] at placed ⊢
    have rest_laid := rest.compile_laid _ laid
    have body_laid := body.compile_laid _ rest_laid
    have body_placed := (suffix_cons _ _).trans placed
    have rest_placed := (suffix_append _ _).trans body_placed
    have after_trace := ih_rest rest_placed laid bounded traced
    refine trace_cons divides placed ?_
    by_cases empty : body.size = 0
    · obtain rfl := size_eq_zero empty
      have nothing : inside.flatten = [] := by
        rw [flatten_eq_nil_iff]
        exact fun iteration member => by simpa [Trace] using taken iteration member
      simpa [nothing, compile] using after_trace
    have starting := targets _ (placed.mem mem_cons_self)
    simp only [Word.targets, if_neg (show ¬pc + 1 + body.size = pc + 1 by omega)] at starting
    have first : pc + 1 ∈ starts := starting _ (by simp)
    have ending : pc + 1 + body.size ∈ starts := starting _ (by simp)
    have inside_trace : instructions inside.flatten = inside.flatten.flatMap fun fetch => content fetch.1 := by
      clear placed traced after_trace
      induction inside with
      | nil => rfl
      | cons iteration others ih =>
        rw [forall_mem_cons] at taken
        have whole := ih_body body_placed rest_laid (trailing_start rest_laid ending) taken.1
        rw [trailing_start body_laid first] at whole
        rw [flatten_cons, instructions_append, flatMap_append, whole, ih taken.2]
        rfl
    rw [trailing_start rest_laid ending] at after_trace
    rw [trailing_start body_laid first, instructions_append, flatMap_append, inside_trace, after_trace]
    rfl

end Program

def sortEdges (block : BasicBlock) : BasicBlock :=
  { block with
    pred := block.pred.insertionSort fun a b => a.source ≥ b.source
    succ := block.succ.insertionSort fun a b => a.target ≤ b.target }

lemma deconstruct_perm (words : List Word) :
    (deconstructFragmentProgram words).Perm ((Builder.run 0 words .empty).blocks.map sortEdges) :=
  perm_insertionSort _ _

lemma deconstruct_find {words : List Word} (nodup : (Builder.run 0 words .empty).blocks.ids.Nodup) (x : Nat) :
    (deconstructFragmentProgram words).find x = ((Builder.run 0 words .empty).blocks.find x).map sortEdges := by
  have same : ((deconstructFragmentProgram words).ids).Perm (Builder.run 0 words .empty).blocks.ids := by
    have mapped := (deconstruct_perm words).map (·.id)
    rwa [map_map] at mapped
  ext block
  rw [FlowGraph.find_eq_some_iff (same.nodup_iff.mpr nodup), (deconstruct_perm words).mem_iff, mem_map,
    Option.map_eq_some_iff]
  simp only [FlowGraph.find_eq_some_iff nodup]
  constructor
  · rintro ⟨⟨original, member, rfl⟩, named⟩
    exact ⟨original, ⟨member, named⟩, rfl⟩
  · rintro ⟨original, ⟨member, named⟩, rfl⟩
    exact ⟨⟨original, member, rfl⟩, named⟩

namespace Program

variable (program : Program)

include program

lemma laid : Laid 0 (program.compile 0) := by
  have nothing : Laid (0 + program.size) [] := trivial
  simpa using program.compile_laid 0 nothing

lemma build_spec :
    let st := Builder.run 0 program.words .empty
    Wired st.blocks st.bb ∧ (∀ x, x ∈ st.blocks.ids ↔ x ∈ leaders (program.compile 0)) ∧
      ∀ x, st.blocks.view (·.instructions) x =
        contribution (leaders (program.compile 0)) 0 (program.compile 0) x := by
  have nested : Nested ([] ++ program.compile 0) := program.compile_nested 0
  have built := run_spec nested program.laid .empty .empty
  rw [words, run_eq_foldl program.laid]
  refine ⟨built.1, built.2.1, fun x => (built.2.2 x).trans ?_⟩
  have nothing : Builder.empty.blocks.view (·.instructions) x = [] := by
    simp only [FlowGraph.view, FlowGraph.find, Builder.empty, find?_singleton]
    split <;> rfl
  rw [nothing]
  rfl

lemma graph_descending : Descending program.graph := by
  obtain ⟨wired, -, -⟩ := program.build_spec
  intro block member edge inside
  obtain ⟨original, known, rfl⟩ := mem_map.mp ((deconstruct_perm program.words).mem_iff.mp member)
  refine wired.lower original.id edge ?_
  rw [FlowGraph.view, (FlowGraph.find_eq_some_iff wired.nodup).mpr ⟨known, rfl⟩]
  exact (mem_insertionSort _).mp inside

lemma graph_instructions (x : Nat) :
    program.graph.view (·.instructions) x =
      contribution (leaders (program.compile 0)) 0 (program.compile 0) x := by
  obtain ⟨wired, -, instructions⟩ := program.build_spec
  rw [← instructions x, FlowGraph.view, graph, deconstruct_find wired.nodup, FlowGraph.view]
  cases (Builder.run 0 program.words .empty).blocks.find x <;> rfl

lemma graph_divides :
    Divides (leaders (program.compile 0)) (program.compile 0) (program.graph.view (·.instructions)) := by
  obtain ⟨wired, ids, -⟩ := program.build_spec
  have laid := program.laid
  refine ⟨fun x missing => ?_, fun fetch rest placed start => ?_⟩
  · rw [FlowGraph.view, graph, deconstruct_find wired.nodup,
      FlowGraph.find_none.mpr fun known => missing ((ids x).mp known)]
    rfl
  obtain ⟨before, whole⟩ := placed
  rw [graph_instructions, ← whole]
  rw [← whole] at laid
  obtain ⟨-, first, earlier, later⟩ := laid_split laid
  refine contribution_here (whole ▸ start) (fun other member => (earlier other member).ne) ?_ later
  exact first.imp id fun above => above.ne

lemma trace_visits (traced : program.Trace 0 trace) :
    instructions trace = (visits program.graph trace).flatMap (·.instructions) := by
  have starts : ∀ fetch ∈ program.compile 0, ∀ x ∈ fetch.2.targets fetch.1, x ∈ leaders (program.compile 0) :=
    fun fetch member x target => mem_cons_of_mem _ (mem_flatMap.mpr ⟨fetch, member, target⟩)
  have placed : program.compile 0 ++ [] <:+ program.compile 0 := by simp
  have whole := program.trace_blocks program.graph_divides starts placed trivial rfl traced
  have first : (0 : Nat) ∈ leaders (program.compile 0) := mem_cons_self
  rw [append_nil, trailing_start program.laid first, nil_append] at whole
  have collected : ∀ code : Code, (code.flatMap fun fetch => program.graph.view (·.instructions) fetch.1) =
      (visits program.graph code).flatMap (·.instructions) := by
    intro code
    induction code with
    | nil => rfl
    | cons fetch rest ih =>
      rw [flatMap_cons, ih]
      simp only [visits, filterMap_cons, FlowGraph.view]
      cases program.graph.find fetch.1 <;> rfl
  rw [whole, collected]

end Program

end EmuCore.Rsx.Fragment
