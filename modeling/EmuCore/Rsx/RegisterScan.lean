import EmuCore.Rsx.RegisterBarrier

namespace EmuCore.Rsx.Fragment

open List Function

open Replica (Touches hit ReadsFirst Status Op)

lemma expectedType_injective {a b : Bool} (same : expectedType a = expectedType b) : a = b := by
  revert same
  cases a <;> cases b <;> decide

lemma expectedType_ne_unknown (f16 : Bool) : expectedType f16 ≠ .unknown := by cases f16 <;> decide

lemma expectedType_ne_dual (f16 : Bool) : expectedType f16 ≠ .dual := by cases f16 <;> decide

lemma content_cases (content : Content) (f16 : Bool) :
    content = .unknown ∨ content = .dual ∨ content = expectedType f16 ∨ content = expectedType (!f16) := by
  cases content <;> cases f16 <;> decide

variable {instruction : Instruction}

lemma touches_iff {f16 : Bool} {i : Nat} :
    Touches reads instruction f16 i ↔
      ∃ src ∈ instruction.srcs, src.reg.f16 = f16 ∧ i ∈ getRegisterFileRange src := by
  simp [Touches, reads]

lemma touches_twin {f16 : Bool} {i j : Nat} (twin : i / 2 = j / 2) :
    Touches reads instruction f16 i ↔ Touches reads instruction f16 j := by
  simp only [touches_iff, range_twins _ i j twin]

lemma hit_twin (instruction : Instruction) {i j : Nat} (twin : i / 2 = j / 2) :
    hit writes instruction i = hit writes instruction j := by
  cases place : instruction.dst with
  | none => simp [hit, writes, place]
  | some dst => simp [hit, writes, place, range_twins dst i j twin]

lemma foldl_update (content : Content) (lanes : List Nat) (file : RegisterFile) (i : Nat) :
    lanes.foldl (fun file index => update file index content) file i =
      if i ∈ lanes then content else file i := by
  induction lanes generalizing file with
  | nil => simp
  | cons index rest ih =>
    rw [foldl_cons, ih]
    by_cases later : i ∈ rest <;> by_cases here : i = index <;> simp [later, here]

lemma writeBytes_apply (file : RegisterFile) (instruction : Instruction) (i : Nat) :
    writeBytes file instruction.dst i = (hit writes instruction i).elim (file i) expectedType := by
  cases place : instruction.dst with
  | none => simp [writeBytes, hit, writes, place]
  | some dst =>
    rw [writeBytes, foldl_update]
    by_cases inside : i ∈ getRegisterFileRange dst <;> simp [hit, writes, place, inside]

def Scan.barrier (scan : Scan) (f16 : Bool) : List Nat := if f16 then scan.barrier16 else scan.barrier32

structure Scanned (file : RegisterFile) (seen : Bool -> Nat -> Prop) (scan : Scan) : Prop where
  barrier : ∀ f16 i, i ∈ scan.barrier f16 ↔ seen f16 i ∧ file i = expectedType (!f16)
  dual : ∀ f16 i, seen f16 i -> file i = expectedType (!f16) -> scan.file i = .dual
  kept : ∀ i, (∀ f16, seen f16 i -> file i ≠ expectedType (!f16)) -> scan.file i = file i

variable {file : RegisterFile}

lemma Scanned.read {seen : Bool -> Nat -> Prop} {scan : Scan} (scanned : Scanned file seen scan) (f16 : Bool)
    (index : Nat) :
    Scanned file (fun side i => seen side i ∨ f16 = side ∧ i = index) (scan.read f16 index) := by
  by_cases collides : scan.file index = expectedType (!f16)
  · have original : file index = expectedType (!f16) := by
      by_contra other
      by_cases old : ∀ side, seen side index -> file index ≠ expectedType (!side)
      · exact other ((scanned.kept index old).symm.trans collides)
      · push Not at old
        obtain ⟨side, before, typed⟩ := old
        exact expectedType_ne_dual _ (collides.symm.trans (scanned.dual side index before typed))
    have known : scan.file index ≠ .unknown := collides ▸ expectedType_ne_unknown _
    have clash : ¬(scan.file index = expectedType f16 ∨ scan.file index = .dual) := by
      rintro (same | same)
      · exact Bool.not_ne_self f16 (expectedType_injective (collides.symm.trans same))
      · exact expectedType_ne_dual _ (collides.symm.trans same)
    have updated : (scan.read f16 index).file = update scan.file index .dual := by
      rw [Scan.read, if_neg known, if_neg clash]
      split <;> rfl
    have added : ∀ side i, i ∈ (scan.read f16 index).barrier side ↔
        i ∈ scan.barrier side ∨ f16 = side ∧ i = index := by
      intro side i
      rw [Scan.read, if_neg known, if_neg clash]
      cases f16 <;> cases side <;> simp [Scan.barrier]
    refine ⟨fun side i => ?_, fun side i was typed => ?_, fun i never => ?_⟩
    · rw [added, scanned.barrier]
      constructor
      · rintro (old | ⟨rfl, rfl⟩)
        · exact ⟨.inl old.1, old.2⟩
        · exact ⟨.inr ⟨rfl, rfl⟩, original⟩
      · rintro ⟨old | new, typed⟩
        · exact .inl ⟨old, typed⟩
        · exact .inr new
    · rw [updated, update_apply]
      split
      · rfl
      · rcases was with old | ⟨-, here⟩
        · exact scanned.dual side i old typed
        · contradiction
    · rw [updated, update_apply, if_neg]
      · exact scanned.kept i fun side before => never side (.inl before)
      · rintro rfl
        exact never f16 (.inr ⟨rfl, rfl⟩) original
  · have same : scan.read f16 index = scan := by
      rw [Scan.read]
      rcases content_cases (scan.file index) f16 with case | case | case | case
      · rw [if_pos case]
      · rw [if_neg (by simp [case]), if_pos (.inr case)]
      · rw [if_neg (case ▸ expectedType_ne_unknown _), if_pos (.inl case)]
      · contradiction
    have nothing : file index = expectedType (!f16) -> seen f16 index := by
      intro typed
      by_contra unseen
      refine collides ((scanned.kept index fun side before clash => ?_).trans typed)
      have : side = f16 := Bool.not_inj (expectedType_injective (clash.symm.trans typed))
      exact unseen (this ▸ before)
    rw [same]
    refine ⟨fun side i => ?_, fun side i was typed => ?_, fun i never => ?_⟩
    · rw [scanned.barrier]
      constructor
      · exact fun old => ⟨.inl old.1, old.2⟩
      · rintro ⟨old | ⟨rfl, rfl⟩, typed⟩
        · exact ⟨old, typed⟩
        · exact ⟨nothing typed, typed⟩
    · rcases was with old | ⟨rfl, rfl⟩
      · exact scanned.dual side i old typed
      · exact scanned.dual _ _ (nothing typed) typed
    · exact scanned.kept i fun side before => never side (.inl before)

lemma Scanned.readAll {seen : Bool -> Nat -> Prop} {scan : Scan} (scanned : Scanned file seen scan) (f16 : Bool)
    (lanes : List Nat) :
    Scanned file (fun side i => seen side i ∨ f16 = side ∧ i ∈ lanes) (lanes.foldl (Scan.read f16) scan) := by
  induction lanes generalizing scan seen with
  | nil => simpa using scanned
  | cons index rest ih =>
    have next := ih (scanned.read f16 index)
    simp only [or_assoc, ← and_or_left, ← mem_cons] at next
    exact next

lemma scanSources_scanned (file : RegisterFile) (instruction : Instruction) :
    Scanned file (Touches reads instruction) (scanSources file instruction) := by
  have general : ∀ (srcs : List RegisterRef) (seen : Bool -> Nat -> Prop) (scan : Scan),
      Scanned file seen scan ->
      Scanned file (fun f16 i => seen f16 i ∨ ∃ src ∈ srcs, src.reg.f16 = f16 ∧ i ∈ getRegisterFileRange src)
        (srcs.foldl (fun scan src => (getRegisterFileRange src).foldl (Scan.read src.reg.f16) scan) scan) := by
    intro srcs
    induction srcs with
    | nil =>
      intro seen scan scanned
      simpa using scanned
    | cons src rest ih =>
      intro seen scan scanned
      have next := ih _ _ (scanned.readAll src.reg.f16 (getRegisterFileRange src))
      simpa only [or_assoc, mem_cons, exists_eq_or_imp, foldl_cons] using next
  have start : Scanned file (fun _ _ => False) ⟨file, [], []⟩ :=
    ⟨fun f16 i => by cases f16 <;> simp [Scan.barrier], fun _ _ never => never.elim, fun _ _ => rfl⟩
  have whole := general instruction.srcs _ _ start
  simp only [false_or, ← touches_iff] at whole
  exact whole

open Classical in
lemma scanSources_file (file : RegisterFile) (instruction : Instruction) (i : Nat) :
    (scanSources file instruction).file i =
      if ∃ f16, Touches reads instruction f16 i ∧ file i = expectedType (!f16) then .dual else file i := by
  have scanned := scanSources_scanned file instruction
  split
  next clash =>
    obtain ⟨f16, touches, typed⟩ := clash
    exact scanned.dual f16 i touches typed
  next calm => exact scanned.kept i fun f16 touches typed => calm ⟨f16, touches, typed⟩

lemma scanSources_unknown {i : Nat} :
    (scanSources file instruction).file i = .unknown ↔ file i = .unknown := by
  rw [scanSources_file]
  split
  next clash =>
    obtain ⟨f16, -, typed⟩ := clash
    simp [typed, expectedType_ne_unknown]
  next => rfl

def FileTwins (file : RegisterFile) : Prop := ∀ i j, i / 2 = j / 2 -> file i = file j

lemma scan_barrier_twins (twins : FileTwins file) (instruction : Instruction) (f16 : Bool) :
    Twins ((scanSources file instruction).barrier f16) := by
  intro i j twin
  rw [(scanSources_scanned file instruction).barrier, (scanSources_scanned file instruction).barrier,
    touches_twin twin, twins i j twin]

lemma scan_barrier_bounded (file : RegisterFile) (instruction : Instruction) (f16 : Bool) :
    ∀ i ∈ (scanSources file instruction).barrier f16, i < 384 := by
  intro i member
  obtain ⟨touches, -⟩ := ((scanSources_scanned file instruction).barrier f16 i).mp member
  obtain ⟨src, -, -, inside⟩ := touches_iff.mp touches
  exact range_bounded inside

open Classical in
lemma scan_file_twins (twins : FileTwins file) (instruction : Instruction) :
    FileTwins (scanSources file instruction).file := by
  intro i j twin
  simp only [scanSources_file, touches_twin twin, twins i j twin]

lemma writeBytes_twins (twins : FileTwins file) (instruction : Instruction) :
    FileTwins (writeBytes file instruction.dst) := by
  intro i j twin
  rw [writeBytes_apply, writeBytes_apply, hit_twin instruction twin, twins i j twin]

lemma exec_twins (twins : FileTwins file) (instructions : List Instruction) :
    FileTwins (insertDependencyBarriers file instructions).2 := by
  induction instructions generalizing file with
  | nil => exact twins
  | cons instruction rest ih => exact ih (writeBytes_twins (scan_file_twins twins instruction) instruction)

def scanOps (file : RegisterFile) (instruction : Instruction) : List (Op Instruction Nat) :=
  let scan := scanSources file instruction
  [.copy true scan.barrier16, .copy false scan.barrier32, .act instruction]

def blockOps (file : RegisterFile) : List Instruction -> List (Op Instruction Nat)
  | [] => []
  | instruction :: rest =>
    scanOps file instruction ++
      blockOps (writeBytes (scanSources file instruction).file instruction.dst) rest

def Matches (emitted : List Emitted) (ops : List (Op Instruction Nat)) : Prop :=
  ∀ meaning files tail,
    separateRun meaning files (emitted ++ tail) =
      Replica.split reads writes meaning files ops ++
        separateRun meaning (ops.foldl (Replica.apply reads writes meaning) files) tail

lemma Matches.append {first second : List Emitted} {firstOps secondOps : List (Op Instruction Nat)}
    (one : Matches first firstOps) (two : Matches second secondOps) :
    Matches (first ++ second) (firstOps ++ secondOps) := by
  intro meaning files tail
  rw [append_assoc, one, two, Replica.split_append, foldl_append, append_assoc]

lemma matches_nil : Matches [] [] := fun _ _ _ => rfl

lemma matches_original (instruction : Instruction) :
    Matches [.original instruction] [.act instruction] := fun _ _ _ => rfl

lemma separateRun_barriers (meaning : Meaning) (files : Files) (barriers : List Barrier)
    (tail : List Emitted) :
    separateRun meaning files (barriers.map .barrier ++ tail) =
      separateRun meaning (barriers.foldl Barrier.exec files) tail := by
  induction barriers generalizing files with
  | nil => rfl
  | cons barrier rest ih => exact ih _

lemma matches_resolve {lanes : List Nat} (twins : Twins lanes) (bounded : ∀ i ∈ lanes, i < 384)
    (f16 : Bool) : Matches ((resolveDependencies lanes f16).map .barrier) [.copy f16 lanes] := by
  intro meaning files tail
  rw [separateRun_barriers, resolveDependencies_exec twins bounded meaning]
  rfl

lemma matches_block (twins : FileTwins file) (instructions : List Instruction) :
    Matches (insertDependencyBarriers file instructions).1 (blockOps file instructions) := by
  induction instructions generalizing file with
  | nil => exact matches_nil
  | cons instruction rest ih =>
    have half := matches_resolve (scan_barrier_twins twins instruction true)
      (scan_barrier_bounded file instruction true) true
    have full := matches_resolve (scan_barrier_twins twins instruction false)
      (scan_barrier_bounded file instruction false) false
    have after := ih (writeBytes_twins (scan_file_twins twins instruction) instruction)
    have whole := (half.append full).append ((matches_original instruction).append after)
    simpa [insertDependencyBarriers, blockOps, scanOps, Scan.barrier] using whole

lemma acts_blockOps (file : RegisterFile) (instructions : List Instruction) :
    Replica.acts (blockOps file instructions) = instructions := by
  induction instructions generalizing file with
  | nil => rfl
  | cons instruction rest ih => simp [blockOps, scanOps, Replica.acts, ih]

def Content.status (entry : Status) : Content -> Status
  | .unknown => entry
  | .float32 => .only false
  | .float16 => .only true
  | .dual => .both

@[simp] lemma status_expectedType (entry : Status) (f16 : Bool) :
    (expectedType f16).status entry = .only f16 := by cases f16 <;> rfl

lemma scan_copy_status (entry : Status) (i : Nat) :
    ((file i).status entry).afterAll writes i
        ([.copy true (scanSources file instruction).barrier16,
          .copy false (scanSources file instruction).barrier32] : List (Op Instruction Nat)) =
      ((scanSources file instruction).file i).status entry := by
  have scanned := scanSources_scanned file instruction
  have half := scanned.barrier true i
  have full := scanned.barrier false i
  simp only [Scan.barrier, if_true, Bool.false_eq_true, if_false] at half full
  simp only [Status.afterAll_cons, Status.afterAll_nil, Status.after]
  by_cases second : i ∈ (scanSources file instruction).barrier32
  · have known := full.mp second
    rw [if_pos second, scanned.dual false i known.1 known.2]
    rfl
  rw [if_neg second]
  by_cases first : i ∈ (scanSources file instruction).barrier16
  · have known := half.mp first
    rw [if_pos first, scanned.dual true i known.1 known.2]
    rfl
  · rw [if_neg first, scanned.kept i]
    intro f16 touches typed
    cases f16 with
    | false => exact second (full.mpr ⟨touches, typed⟩)
    | true => exact first (half.mpr ⟨touches, typed⟩)

section

variable (file : RegisterFile) (instruction : Instruction) (instructions : List Instruction)

lemma scanOps_status (entry : Status) (i : Nat) :
    ((file i).status entry).afterAll writes i (scanOps file instruction) =
      (writeBytes (scanSources file instruction).file instruction.dst i).status entry := by
  have copies : ((file i).status entry).afterAll writes i (scanOps file instruction) =
      Status.after writes i (((scanSources file instruction).file i).status entry) (.act instruction) := by
    rw [← scan_copy_status]
    rfl
  rw [copies, writeBytes_apply]
  cases place : hit writes instruction i <;> simp [Status.after, place]

lemma blockOps_status (entry : Status) (i : Nat) :
    ((file i).status entry).afterAll writes i (blockOps file instructions) =
      ((insertDependencyBarriers file instructions).2 i).status entry := by
  induction instructions generalizing file with
  | nil => rfl
  | cons instruction rest ih =>
    rw [blockOps, Status.afterAll_append, scanOps_status, ih, insertDependencyBarriers]

lemma scanOps_copiesOk (entry : Nat -> Status) :
    Replica.CopiesOk writes (fun i => (file i).status (entry i)) (scanOps file instruction) := by
  have scanned := scanSources_scanned file instruction
  refine ⟨fun i inside => .inl ?_, fun i inside => .inl ?_, trivial⟩
  · have known := (scanned.barrier true i).mp inside
    simp only [known.2, status_expectedType]
  have known := (scanned.barrier false i).mp inside
  have other : i ∉ (scanSources file instruction).barrier16 := fun twice => by
    have typed := ((scanned.barrier true i).mp twice).2
    exact absurd (expectedType_injective (typed.symm.trans known.2)) (by decide)
  simp only [Status.after, if_neg other, known.2, status_expectedType]

lemma blockOps_copiesOk (entry : Nat -> Status) :
    Replica.CopiesOk writes (fun i => (file i).status (entry i)) (blockOps file instructions) := by
  induction instructions generalizing file with
  | nil => trivial
  | cons instruction rest ih =>
    rw [blockOps, Replica.copiesOk_append]
    simp only [scanOps_status]
    exact ⟨scanOps_copiesOk file instruction entry, ih _⟩

lemma scanOps_readsOk (entry : Nat -> Status) :
    Replica.ReadsOk reads writes (fun i => (file i).status (entry i)) (scanOps file instruction) ↔
      ∀ f16 i, file i = .unknown -> Touches reads instruction f16 i -> (entry i).Readable f16 := by
  have scanned := scanSources_scanned file instruction
  have unfolded : Replica.ReadsOk reads writes (fun i => (file i).status (entry i)) (scanOps file instruction) ↔
      ∀ f16 i, Touches reads instruction f16 i ->
        (((scanSources file instruction).file i).status (entry i)).Readable f16 := by
    simp only [← scan_copy_status]
    simp [scanOps, Replica.ReadsOk]
  rw [unfolded]
  refine forall_congr' fun f16 => forall_congr' fun i => ?_
  by_cases fresh : file i = .unknown
  · rw [scanSources_unknown.mpr fresh]
    simp [fresh, Content.status]
  simp only [fresh, false_implies, iff_true]
  intro touches
  rcases content_cases (file i) f16 with case | case | case | case
  · contradiction
  · rw [scanned.kept i fun side _ typed => expectedType_ne_dual _ (typed.symm.trans case), case]
    trivial
  · rw [scanSources_file]
    split
    · trivial
    · rw [case, status_expectedType]
      rfl
  · rw [scanned.dual f16 i touches case]
    trivial

lemma blockOps_readsOk (entry : Nat -> Status) :
    Replica.ReadsOk reads writes (fun i => (file i).status (entry i)) (blockOps file instructions) ↔
      ∀ f16 i, file i = .unknown -> ReadsFirst reads writes instructions f16 i -> (entry i).Readable f16 := by
  induction instructions generalizing file with
  | nil => simp [blockOps, Replica.ReadsOk, ReadsFirst]
  | cons instruction rest ih =>
    rw [blockOps, Replica.readsOk_append]
    simp only [scanOps_status, ih, scanOps_readsOk, ReadsFirst]
    have untouched : ∀ i, writeBytes (scanSources file instruction).file instruction.dst i = .unknown ↔
        file i = .unknown ∧ hit writes instruction i = none := by
      intro i
      rw [writeBytes_apply]
      cases place : hit writes instruction i with
      | none => simp [scanSources_unknown]
      | some f16 => simp [expectedType_ne_unknown]
    simp only [untouched]
    constructor
    · rintro ⟨now, later⟩ f16 i fresh (touches | ⟨away, first⟩)
      · exact now f16 i fresh touches
      · exact later f16 i ⟨fresh, away⟩ first
    · intro both
      exact ⟨fun f16 i fresh touches => both f16 i fresh (.inl touches),
        fun f16 i fresh first => both f16 i fresh.1 (.inr ⟨fresh.2, first⟩)⟩

def Stale (stale : Bool -> Nat -> Prop) (instruction : Instruction) (f16 : Bool) (i : Nat) : Prop :=
  match hit writes instruction i with
  | some side => side = !f16
  | none => stale f16 i ∧ ¬Touches reads instruction f16 i

-- In front of each instruction, barriers for exactly the stale bytes that it reads.
def Guarded (stale : Bool -> Nat -> Prop) : List Instruction -> List Emitted -> Prop
  | [], emitted => emitted = []
  | instruction :: rest, emitted => ∃ (barriers : List Barrier) (later : List Emitted),
    emitted = barriers.map .barrier ++ .original instruction :: later ∧
      (∀ barrier ∈ barriers, barrier.Straight) ∧
      (∀ f16 i, (∃ barrier ∈ barriers, barrier.into = f16 ∧ barrier.Covers i) ↔
        Touches reads instruction f16 i ∧ stale f16 i) ∧
      Guarded (Stale stale instruction) rest later

lemma stale_step :
    Stale (fun f16 i => file i = expectedType (!f16)) instruction = fun f16 i =>
      writeBytes (scanSources file instruction).file instruction.dst i = expectedType (!f16) := by
  funext f16 i
  have scanned := scanSources_scanned file instruction
  rw [writeBytes_apply, Stale]
  cases hit writes instruction i with
  | some side => simpa using ⟨congrArg expectedType, expectedType_injective⟩
  | none =>
    by_cases clash : ∃ side, Touches reads instruction side i ∧ file i = expectedType (!side)
    · obtain ⟨side, touches, typed⟩ := clash
      have same : file i = expectedType (!f16) -> side = f16 := fun other =>
        Bool.not_inj (expectedType_injective (typed.symm.trans other))
      simp only [Option.elim_none, scanned.dual side i touches typed, (expectedType_ne_dual _).symm, eq_iff_iff, iff_false]
      exact fun stale => stale.2 (same stale.1 ▸ touches)
    · push Not at clash
      simp only [Option.elim_none, scanned.kept i clash, eq_iff_iff, and_iff_left_iff_imp]
      exact fun typed touches => clash f16 touches typed

end

lemma guarded_block (twins : FileTwins file) (instructions : List Instruction) :
    Guarded (fun f16 i => file i = expectedType (!f16)) instructions (insertDependencyBarriers file instructions).1 := by
  induction instructions generalizing file with
  | nil => rfl
  | cons instruction rest ih =>
    have scanned := scanSources_scanned file instruction
    have straight := resolveDependencies_straight
    have covers := fun f16 => resolveDependencies_covers (scan_barrier_twins twins instruction f16)
      (scan_barrier_bounded file instruction f16) f16
    refine ⟨_, _, rfl, fun barrier member => ?_, fun f16 i => ?_, ?_⟩
    · rcases mem_append.mp member with half | full
      · exact (straight _ _ barrier half).2
      · exact (straight _ _ barrier full).2
    · rw [← scanned.barrier, ← covers f16 i]
      constructor
      · rintro ⟨barrier, member, rfl, here⟩
        refine ⟨barrier, ?_, here⟩
        rcases mem_append.mp member with half | full
        · rwa [(straight _ _ barrier half).1]
        · rwa [(straight _ _ barrier full).1]
      · rintro ⟨barrier, member, here⟩
        refine ⟨barrier, mem_append.mpr ?_, (straight _ _ barrier member).1, here⟩
        cases f16
        · exact .inr member
        · exact .inl member
    · rw [stale_step]
      exact ih (writeBytes_twins (scan_file_twins twins instruction) instruction)

theorem insert_dependency_barriers_exact (instructions : List Instruction) :
    let emitted := (insertDependencyBarriers (fun _ => .unknown) instructions).1
    Guarded (fun _ _ => False) instructions emitted ∧
      ∀ (meaning : Meaning) (mem : Nat -> Byte) (files : Files),
        (∀ f16 i, ReadsFirst reads writes instructions f16 i -> files f16 i = mem i) ->
          separateRun meaning files emitted = aliasedRun meaning mem instructions := by
  refine ⟨?_, fun meaning mem files agree => ?_⟩
  · have guarded := @guarded_block (fun _ => .unknown) (fun _ _ _ => rfl) instructions
    simpa only [(expectedType_ne_unknown _).symm] using guarded
  have run := @matches_block (fun _ => .unknown) (fun _ _ _ => rfl) instructions meaning files []
  have copies := blockOps_copiesOk (fun _ => .unknown) instructions fun _ => .fresh
  have reading := (blockOps_readsOk (fun _ => .unknown) instructions fun _ => .fresh).mpr fun _ _ _ _ => trivial
  rw [append_nil, separateRun, append_nil] at run
  rw [run, Replica.split_eq_direct copies reading (fun i side known => absurd rfl known), acts_blockOps, aliasedRun]
  exact fun side i _ first => agree side i (acts_blockOps _ instructions ▸ first)

end EmuCore.Rsx.Fragment
