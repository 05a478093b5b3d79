import EmuCore.Rsx.FragmentBlocks

namespace EmuCore.Rsx.Fragment

open List

def Word.targets (pc : Nat) : Word -> List Nat
  | .nop _ | .op _ => []
  | .ife elseAddr endAddr =>
    if endAddr = pc + 1 then []
    else if elseAddr ≠ pc + 1 ∧ endAddr ≠ elseAddr then [pc + 1, elseAddr, endAddr]
    else [pc + 1, endAddr]
  | .loop endAddr => if endAddr = pc + 1 then [] else [pc + 1, endAddr]

abbrev Code := List (Nat × Word)

def leaders (code : Code) : List Nat := 0 :: code.flatMap fun fetch => fetch.2.targets fetch.1

lemma leaders_append (first second : Code) (x : Nat) :
    x ∈ leaders (first ++ second) ↔
      x ∈ leaders first ∨ x ∈ second.flatMap fun fetch => fetch.2.targets fetch.1 := by
  simp only [leaders, flatMap_append, mem_cons, mem_append, or_assoc]

def Laid : Nat -> Code -> Prop
  | _, [] => True
  | pc, fetch :: rest => fetch.1 = pc ∧ Laid (pc + fetch.2.size) rest

lemma Word.size_pos (word : Word) : 0 < word.size := by
  cases word <;> simp only [Word.size] <;> first | omega | (split <;> omega)

variable {pc : Nat} {code : Code}

lemma laid_above (laid : Laid pc code) : ∀ fetch ∈ code, pc ≤ fetch.1 := by
  induction code generalizing pc with
  | nil => simp
  | cons first rest ih =>
    obtain ⟨rfl, later⟩ := laid
    rw [forall_mem_cons]
    exact ⟨le_rfl, fun fetch member => (Nat.le_add_right _ _).trans (ih later fetch member)⟩

def Word.Ordered (pc : Nat) : Word -> Prop
  | .nop _ | .op _ => True
  | .ife elseAddr endAddr => pc + 1 ≤ elseAddr ∧ elseAddr ≤ endAddr
  | .loop endAddr => pc + 1 ≤ endAddr

-- Branches lead down, and those that are still open end where an inner one does or after it.
structure Nested (code : Code) : Prop where
  ordered : ∀ fetch ∈ code, fetch.2.Ordered fetch.1
  inside : code.Pairwise fun outer inner => ∀ x ∈ outer.2.targets outer.1, inner.1 < x ->
    ∀ y ∈ inner.2.targets inner.1, y ≤ x

structure Tracks (code : Code) (pc : Nat) (st : Builder) : Prop where
  ids : ∀ x, x ∈ st.blocks.ids ↔ x ∈ leaders code
  pending : ∀ x ∈ leaders code, pc ≤ x -> x = st.bb ∨ x ∈ st.endBlocks ∨ x ∈ st.elseBlocks
  lists : ∀ x, x ∈ st.endBlocks ∨ x ∈ st.elseBlocks -> x ∈ leaders code
  low : st.bb ≤ pc
  entered : st.bb = pc -> pc ∉ st.endBlocks ∧ pc ∉ st.elseBlocks

lemma Tracks.empty : Tracks [] 0 .empty := by
  refine ⟨by simp [FlowGraph.ids, Builder.empty, leaders], ?_, ?_, ?_, ?_⟩ <;>
    simp [leaders, Builder.empty]

variable {st : Builder}

lemma enter_spec (tracks : Tracks code pc st) (wired : Wired st.blocks st.bb) :
    Wired (st.enter pc).blocks (st.enter pc).bb ∧
      (st.enter pc).bb = (if pc ∈ leaders code then pc else st.bb) ∧
      (∀ x, x ∈ (st.enter pc).blocks.ids ↔ x ∈ leaders code) ∧
      (∀ x, (st.enter pc).blocks.view (·.instructions) x = st.blocks.view (·.instructions) x) ∧
      (st.enter pc).endBlocks = st.endBlocks ∧ (st.enter pc).elseBlocks = st.elseBlocks := by
  unfold Builder.enter
  split
  next listed =>
    have leader := tracks.lists pc listed
    have below : st.bb < pc := by
      refine lt_of_le_of_ne tracks.low fun same => ?_
      obtain ⟨first, second⟩ := tracks.entered same
      exact listed.elim first second
    have known : pc ∈ st.blocks.ids := (tracks.ids pc).mpr leader
    rcases closeBlock_cases st.blocks st.bb wired with same | ⟨after, type, above, inside, plain, same⟩
    · simp only [same, if_pos leader]
      refine ⟨⟨wired.nodup, known, wired.targets, wired.lower, fun x some_edge => ?_, wired.exits⟩,
        trivial, tracks.ids, fun _ => trivial, trivial, trivial⟩
      exact (wired.left x some_edge).trans below
    have adds := insertEdge_adds type wired.here inside known
    have none : closing type = none := by rcases plain with rfl | rfl <;> rfl
    have kept : ∀ {x : Nat}, x ∈ st.blocks.ids -> x ∈ (st.blocks.insertEdge st.bb after type).ids :=
      fun {x} old => (adds.ids x).mpr (.inl old)
    simp only [same, if_pos leader]
    refine ⟨adds.wired wired above (kept inside) none below (kept known), trivial, fun x => ?_,
      adds.instructions, trivial, trivial⟩
    rw [adds.ids, tracks.ids]
    exact ⟨fun either => either.elim (fun old => old) fun new => new ▸ leader, .inl⟩
  next unlisted =>
    refine ⟨wired, ?_, tracks.ids, fun _ => rfl, rfl, rfl⟩
    split
    next leader =>
      rcases tracks.pending pc leader le_rfl with here | listed
      · exact here.symm
      · exact absurd listed unlisted
    next => rfl

lemma emit_spec (instruction : Option Instruction) (wired : Wired st.blocks st.bb) :
    Wired (st.emit instruction).blocks st.bb ∧
      (∀ x, x ∈ (st.emit instruction).blocks.ids ↔ x ∈ st.blocks.ids) ∧
      (∀ x, (st.emit instruction).blocks.view (·.instructions) x =
        st.blocks.view (·.instructions) x ++ if x = st.bb then instruction.toList else []) ∧
      (st.emit instruction).bb = st.bb ∧ (st.emit instruction).endBlocks = st.endBlocks ∧
        (st.emit instruction).elseBlocks = st.elseBlocks := by
  cases instruction with
  | none => exact ⟨wired, fun _ => Iff.rfl, by simp [Builder.emit], rfl, rfl, rfl⟩
  | some instruction =>
    simp only [Builder.emit]
    have ids : (st.blocks.modify st.bb fun block =>
        { block with instructions := block.instructions ++ [instruction] }).ids = st.blocks.ids :=
      FlowGraph.ids_modify (by intro; rfl)
    have succ : ∀ x, (st.blocks.modify st.bb fun block =>
        { block with instructions := block.instructions ++ [instruction] }).view (·.succ) x =
          st.blocks.view (·.succ) x := FlowGraph.view_modify_same (by intro; rfl) (by intro; rfl)
    have pred : ∀ x, (st.blocks.modify st.bb fun block =>
        { block with instructions := block.instructions ++ [instruction] }).view (·.pred) x =
          st.blocks.view (·.pred) x := FlowGraph.view_modify_same (by intro; rfl) (by intro; rfl)
    refine ⟨⟨ids ▸ wired.nodup, ids ▸ wired.here, ?_, ?_, ?_, ?_⟩, fun x => by rw [ids], ?_, trivial, trivial,
      trivial⟩
    · simpa only [succ, ids] using wired.targets
    · simpa only [pred] using wired.lower
    · simpa only [succ] using wired.left
    · simpa only [pred, succ] using wired.exits
    · exact fun x => FlowGraph.view_modify (by intro; rfl) (by intro; rfl) wired.here x

structure Branched (st st' : Builder) (pc : Nat) (word : Word) : Prop where
  wired : Wired st'.blocks st'.bb
  ids : ∀ x, x ∈ st'.blocks.ids ↔ x ∈ st.blocks.ids ∨ x ∈ word.targets pc
  instructions : ∀ x, st'.blocks.view (·.instructions) x = st.blocks.view (·.instructions) x
  bb : st'.bb = if word.targets pc = [] then st.bb else pc + 1
  lists : ∀ x, x ∈ st'.endBlocks ∨ x ∈ st'.elseBlocks ↔
    (x ∈ st.endBlocks ∨ x ∈ st.elseBlocks) ∨ x ∈ word.targets pc ∧ x ≠ pc + 1

variable {word : Word}

lemma Branched.same (wired : Wired st.blocks st.bb) (none : word.targets pc = []) : Branched st st pc word :=
  ⟨wired, by simp [none], fun _ => rfl, by simp [none], by simp [none]⟩

-- A loop leads where a branch with nothing to skip leads.
lemma targets_loop (pc endAddr : Nat) : (Word.loop endAddr).targets pc = (Word.ife endAddr endAddr).targets pc := by
  simp [Word.targets]

lemma mem_targets {elseAddr endAddr x : Nat} (member : x ∈ (Word.ife elseAddr endAddr).targets pc) :
    x = pc + 1 ∨ x = elseAddr ∨ x = endAddr := by
  simp only [Word.targets] at member
  split at member
  · cases member
  · split at member <;> simp at member <;> omega

lemma targets_above (ordered : word.Ordered pc) : ∀ x ∈ word.targets pc, pc < x := by
  intro x member
  cases word with
  | nop literal | op operation => cases member
  | ife elseAddr endAddr =>
    simp only [Word.Ordered] at ordered
    have := mem_targets member
    omega
  | loop endAddr =>
    simp only [Word.Ordered] at ordered
    rw [targets_loop] at member
    have := mem_targets member
    omega

lemma ife_target {elseAddr endAddr : Nat} (some_target : (Word.ife elseAddr endAddr).targets pc ≠ []) :
    endAddr ≠ pc + 1 ∧ pc + 1 ∈ (Word.ife elseAddr endAddr).targets pc ∧
      endAddr ∈ (Word.ife elseAddr endAddr).targets pc := by
  simp only [Word.targets] at some_target ⊢
  split at some_target
  · exact absurd rfl some_target
  next body =>
    rw [if_neg body]
    exact ⟨body, by split <;> simp, by split <;> simp⟩

lemma body_target (some_target : word.targets pc ≠ []) :
    word.size = 1 ∧ pc + 1 ∈ word.targets pc ∧ (word.Ordered pc -> ∃ x ∈ word.targets pc, pc + 1 < x) := by
  cases word with
  | nop literal | op operation => exact absurd rfl some_target
  | ife elseAddr endAddr =>
    obtain ⟨body, first, last⟩ := ife_target some_target
    refine ⟨rfl, first, fun ordered => ⟨endAddr, last, ?_⟩⟩
    simp only [Word.Ordered] at ordered
    omega
  | loop endAddr =>
    rw [targets_loop] at some_target ⊢
    obtain ⟨body, first, last⟩ := ife_target some_target
    refine ⟨rfl, first, fun ordered => ⟨endAddr, last, ?_⟩⟩
    simp only [Word.Ordered] at ordered
    omega

lemma Opening.branched {middle : FlowGraph} {kind : EdgeType} {endAddr : Nat}
    (opening : Opening middle st.bb kind endAddr) (word : Word) (more : List Nat) (plain : closing kind = none) (low : st.bb ≤ pc) (far : pc < endAddr)
    (ids : ∀ x, x ∈ middle.ids ↔ x ∈ st.blocks.ids ∨ x ∈ (pc + 1) :: more)
    (instructions : ∀ x, middle.view (·.instructions) x = st.blocks.view (·.instructions) x)
    (targets : word.targets pc = (pc + 1) :: (more ++ [endAddr])) (apart : pc + 1 ∉ more ++ [endAddr]) :
    Branched st ⟨Builder.safeInsertBlock middle st.bb endAddr kind, pc + 1, st.endBlocks ++ [endAddr],
      st.elseBlocks ++ more⟩ pc word := by
  obtain ⟨succ, high, known, last⟩ := safeInsertBlock_end opening
  refine ⟨opening.close last (by omega) high known plain (Nat.lt_succ_of_le low) ?_, fun x => ?_,
    fun x => (last.instructions x).trans (instructions x), by simp [targets], fun x => ?_⟩
  · rw [last.ids, ids]
    simp
  · rw [last.ids, ids, targets, ← cons_append, mem_append, mem_singleton, or_assoc]
  rw [targets, mem_append, mem_append]
  constructor
  · rintro ((old | new) | old | new)
    · exact .inl (.inl old)
    · exact .inr ⟨mem_cons_of_mem _ (mem_append_right _ new), fun same => apart (same ▸ mem_append_right _ new)⟩
    · exact .inl (.inr old)
    · exact .inr ⟨mem_cons_of_mem _ (mem_append_left _ new), fun same => apart (same ▸ mem_append_left _ new)⟩
  · rintro ((old | old) | ⟨new, other⟩)
    · exact .inl (.inl old)
    · exact .inr (.inl old)
    · exact (mem_append.mp ((mem_cons.mp new).resolve_left other)).elim (.inr ∘ .inr) (.inl ∘ .inr)

lemma branch_ife {elseAddr endAddr : Nat} (wired : Wired st.blocks st.bb) (low : st.bb ≤ pc)
    (ordered : (Word.ife elseAddr endAddr).Ordered pc) (some_body : endAddr ≠ pc + 1)
    (inside : ∀ x ∈ st.blocks.ids, pc < x -> endAddr ≤ x) :
    Branched st (st.branch pc (.ife elseAddr endAddr)) pc (.ife elseAddr endAddr) := by
  simp only [Word.Ordered] at ordered
  have fresh : ∀ x, pc < x -> x < endAddr -> x ∉ st.blocks.ids := fun x above below known => by
    have := inside x known above
    omega
  have first := safeInsertBlock_new .if wired.here (fresh (pc + 1) (by omega) (by omega))
  have entered := (wired.opening .endif endAddr).enter first (by omega) (by omega) rfl
  simp only [Builder.branch, if_neg some_body]
  by_cases hasElse : elseAddr ≠ pc + 1 ∧ endAddr ≠ elseAddr
  · have new : elseAddr ∉ (Builder.safeInsertBlock st.blocks st.bb (pc + 1) .if).ids := by
      rw [first.ids]
      rintro (old | same)
      · exact fresh elseAddr (by omega) (by omega) old
      · exact hasElse.1 same
    have second := safeInsertBlock_new .else entered.here new
    simp only [if_pos hasElse]
    refine (entered.enter second (by omega) (by omega) rfl).branched _ [elseAddr] rfl low (by omega) (fun x => ?_)
      (fun x => (second.instructions x).trans (first.instructions x)) ?_ ?_
    · rw [second.ids, first.ids, or_assoc, mem_pair]
    · simp [Word.targets, some_body, hasElse]
    · simp [some_body.symm, hasElse.1.symm]
  · simp only [if_neg hasElse]
    have branched := entered.branched (.ife elseAddr endAddr) [] rfl low (by omega)
      (fun x => by rw [first.ids, mem_singleton]) first.instructions ?_ (by simpa using some_body.symm)
    · rwa [append_nil] at branched
    · simp only [Word.targets, if_neg some_body, if_neg hasElse, nil_append]

lemma branch_loop {endAddr : Nat} (wired : Wired st.blocks st.bb) (low : st.bb ≤ pc)
    (ordered : (Word.loop endAddr).Ordered pc) (some_body : endAddr ≠ pc + 1)
    (inside : ∀ x ∈ st.blocks.ids, pc < x -> endAddr ≤ x) :
    Branched st (st.branch pc (.loop endAddr)) pc (.loop endAddr) := by
  simp only [Word.Ordered] at ordered
  have new : pc + 1 ∉ st.blocks.ids := fun known => by
    have := inside (pc + 1) known (by omega)
    omega
  have first := safeInsertBlock_new .loop wired.here new
  have entered := (wired.opening .endloop endAddr).enter first (by omega) (by omega) rfl
  simp only [Builder.branch, if_neg some_body]
  have branched := entered.branched (.loop endAddr) [] rfl low (by omega)
    (fun x => by rw [first.ids, mem_singleton]) first.instructions ?_ (by simpa using some_body.symm)
  · rwa [append_nil] at branched
  · simp only [Word.targets, if_neg some_body, nil_append]

lemma branch_spec (wired : Wired st.blocks st.bb) (low : st.bb ≤ pc) (ordered : word.Ordered pc)
    (inside : ∀ x ∈ st.blocks.ids, pc < x -> ∀ y ∈ word.targets pc, y ≤ x) :
    Branched st (st.branch pc word) pc word := by
  cases word with
  | nop literal | op operation => exact .same wired rfl
  | ife elseAddr endAddr =>
    by_cases empty : endAddr = pc + 1
    · simp only [Builder.branch, empty, if_true]
      exact .same wired (by simp [Word.targets])
    · refine branch_ife wired low ordered empty fun x known above => inside x known above endAddr ?_
      simp only [Word.targets, if_neg empty]
      split <;> simp
  | loop endAddr =>
    by_cases empty : endAddr = pc + 1
    · simp only [Builder.branch, empty, if_true]
      exact .same wired (by simp [Word.targets])
    · refine branch_loop wired low ordered empty fun x known above => inside x known above endAddr ?_
      simp [Word.targets, empty]

lemma step_spec (tracks : Tracks code pc st) (wired : Wired st.blocks st.bb) (ordered : word.Ordered pc)
    (inside : ∀ x ∈ leaders code, pc < x -> ∀ y ∈ word.targets pc, y ≤ x) :
    Tracks (code ++ [(pc, word)]) (pc + word.size) (st.step pc word) ∧
      Wired (st.step pc word).blocks (st.step pc word).bb ∧
      (∀ x, (st.step pc word).blocks.view (·.instructions) x =
        st.blocks.view (·.instructions) x ++
          if x = (if pc ∈ leaders code then pc else st.bb) then (word.instruction pc).toList else []) ∧
      (st.step pc word).bb =
        if word.targets pc = [] then (if pc ∈ leaders code then pc else st.bb) else pc + 1 := by
  obtain ⟨entered, current, ids, kept, ends, elses⟩ := enter_spec tracks wired
  obtain ⟨emitted, ids', added, current', ends', elses'⟩ := emit_spec (word.instruction pc) entered
  have low : (if pc ∈ leaders code then pc else st.bb) ≤ pc := by
    split
    · exact le_rfl
    · exact tracks.low
  rw [current] at added current'
  have ready : Wired ((st.enter pc).emit (word.instruction pc)).blocks
      ((st.enter pc).emit (word.instruction pc)).bb := by
    rw [current', ← current]
    exact emitted
  have branched := branch_spec ready (current' ▸ low) ordered
    fun x known => inside x ((ids x).mp ((ids' x).mp known))
  have member : ∀ x, x ∈ leaders (code ++ [(pc, word)]) ↔ x ∈ leaders code ∨ x ∈ word.targets pc := by
    intro x
    rw [leaders_append]
    simp
  have size := word.size_pos
  have bb := branched.bb
  rw [current'] at bb
  refine ⟨⟨fun x => ?_, fun x leader high => ?_, fun x listed => ?_, ?_, fun same => ?_⟩, branched.wired,
    fun x => ?_, bb⟩
  · rw [Builder.step, branched.ids, ids', ids, member]
  · have lists := branched.lists x
    rw [ends', elses', ends, elses] at lists
    rw [Builder.step, lists, bb]
    rcases (member x).mp leader with old | new
    · rcases tracks.pending x old (by omega) with here | listed
      · have := tracks.low
        omega
      · exact .inr (.inl listed)
    · by_cases body : x = pc + 1
      · exact .inl (by rw [if_neg (ne_nil_of_mem new), body])
      · exact .inr (.inr ⟨new, body⟩)
  · have lists := branched.lists x
    rw [ends', elses', ends, elses] at lists
    rcases lists.mp listed with old | new
    · exact (member x).mpr (.inl (tracks.lists x old))
    · exact (member x).mpr (.inr new.1)
  · show (Builder.branch pc word _).bb ≤ _
    rw [bb]
    split <;> omega
  · -- a body that has just been entered ends no other branch
    have body : word.targets pc ≠ [] := by
      intro none
      rw [Builder.step, bb, if_pos none] at same
      omega
    rw [Builder.step, bb, if_neg body] at same
    have lists := branched.lists (pc + word.size)
    rw [ends', elses', ends, elses] at lists
    rw [← not_or, Builder.step, lists]
    rintro (old | ⟨-, other⟩)
    · obtain ⟨x, target, far⟩ := (body_target body).2.2 ordered
      have := inside _ (tracks.lists _ old) (by omega) x target
      omega
    · omega
  · rw [Builder.step, branched.instructions, added, kept]

def contribution (starts : List Nat) : Nat -> Code -> Nat -> List Instruction
  | _, [], _ => []
  | bb, fetch :: rest, x =>
    let bb := if fetch.1 ∈ starts then fetch.1 else bb
    (if x = bb then (fetch.2.instruction fetch.1).toList else []) ++ contribution starts bb rest x

lemma contribution_start {starts : List Nat} (laid : Laid pc code) (start : pc ∈ starts) (first second x : Nat) :
    contribution starts first code x = contribution starts second code x := by
  cases code with
  | nil => rfl
  | cons fetch rest =>
    rw [contribution, contribution, laid.1, if_pos start, if_pos start]

lemma run_spec {done rest : Code} (nested : Nested (done ++ rest)) (laid : Laid pc rest)
    (tracks : Tracks done pc st) (wired : Wired st.blocks st.bb) :
    let final := rest.foldl (fun st fetch => st.step fetch.1 fetch.2) st
    Wired final.blocks final.bb ∧ (∀ x, x ∈ final.blocks.ids ↔ x ∈ leaders (done ++ rest)) ∧
      ∀ x, final.blocks.view (·.instructions) x =
        st.blocks.view (·.instructions) x ++ contribution (leaders (done ++ rest)) st.bb rest x := by
  induction rest generalizing done pc st with
  | nil => exact ⟨wired, by simpa using tracks.ids, by simp [contribution]⟩
  | cons fetch rest ih =>
    obtain ⟨slot, word⟩ := fetch
    obtain ⟨rfl, later⟩ := laid
    have ordered := nested.ordered (slot, word) (by simp)
    have inside : ∀ x ∈ leaders done, slot < x -> ∀ y ∈ word.targets slot, y ≤ x := by
      intro x leader above
      rcases mem_cons.mp leader with rfl | target
      · omega
      · obtain ⟨outer, member, target⟩ := mem_flatMap.mp target
        exact (pairwise_append.mp nested.inside).2.2 outer member (slot, word) (by simp) x target above
    obtain ⟨tracks', wired', added, current⟩ := step_spec tracks wired ordered inside
    have whole : done ++ (slot, word) :: rest = (done ++ [(slot, word)]) ++ rest := by simp
    have settled : slot ∈ leaders done ↔ slot ∈ leaders (done ++ (slot, word) :: rest) := by
      rw [leaders_append]
      refine ⟨.inl, fun either => either.elim (fun old => old) fun new => ?_⟩
      obtain ⟨fetch, member, target⟩ := mem_flatMap.mp new
      have above := targets_above (nested.ordered fetch (mem_append_right _ member)) slot target
      rcases mem_cons.mp member with rfl | member
      · exact absurd above (lt_irrefl _)
      · have := laid_above later fetch member
        omega
    obtain ⟨wired'', ids, instructions⟩ := ih (whole ▸ nested) later tracks' wired'
    refine ⟨wired'', fun x => by rw [whole]; exact ids x, fun x => ?_⟩
    rw [foldl_cons, instructions, added, append_assoc, contribution]
    simp only [settled]
    rw [← whole]
    refine congrArg _ (congrArg _ ?_)
    by_cases none : word.targets slot = []
    · rw [current, if_pos none]
      simp only [settled]
    obtain ⟨size, body, -⟩ := body_target none
    refine contribution_start later ?_ _ _ x
    rw [leaders_append, size]
    exact .inr (mem_flatMap.mpr ⟨(slot, word), by simp, body⟩)

end EmuCore.Rsx.Fragment
