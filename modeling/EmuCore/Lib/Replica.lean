import Mathlib.Tactic

-- One memory that is kept in two replicas. An action reads and writes a replica of its choice;
-- a copy brings places of one replica up to date from the other.
namespace Replica

open List

structure Access (ι : Type) where
  side : Bool
  locs : List ι

inductive Op (α ι : Type)
  | act (a : α)
  | copy (into : Bool) (locs : List ι)

variable {α ι V : Type} [DecidableEq ι]

def hit (writes : α -> Option (Access ι)) (a : α) (i : ι) : Option Bool :=
  (writes a).bind fun access => if i ∈ access.locs then some access.side else none

def Touches (reads : α -> List (Access ι)) (a : α) (side : Bool) (i : ι) : Prop :=
  ∃ access ∈ reads a, access.side = side ∧ i ∈ access.locs

def sources (reads : α -> List (Access ι)) (files : Bool -> ι -> V) (a : α) : List (List V) :=
  (reads a).map fun access => access.locs.map (files access.side)

def acts : List (Op α ι) -> List α
  | [] => []
  | .act a :: rest => a :: acts rest
  | .copy _ _ :: rest => acts rest

section Runs

variable (reads : α -> List (Access ι)) (writes : α -> Option (Access ι))
  (meaning : α -> List (List V) -> ι -> V)

def store (mem : ι -> V) (a : α) : ι -> V := fun i =>
  if (hit writes a i).isSome then meaning a (sources reads (fun _ => mem) a) i else mem i

def direct : (ι -> V) -> List α -> List (List (List V))
  | _, [] => []
  | mem, a :: rest => sources reads (fun _ => mem) a :: direct (store reads writes meaning mem a) rest

def apply (files : Bool -> ι -> V) : Op α ι -> Bool -> ι -> V
  | .act a => fun side i =>
    if hit writes a i = some side then meaning a (sources reads files a) i else files side i
  | .copy into locs => fun side i =>
    if side = into ∧ i ∈ locs then files (!into) i else files side i

def split : (Bool -> ι -> V) -> List (Op α ι) -> List (List (List V))
  | _, [] => []
  | files, .act a :: rest =>
    sources reads files a :: split (apply reads writes meaning files (.act a)) rest
  | files, .copy into locs :: rest => split (apply reads writes meaning files (.copy into locs)) rest

-- Place `i` is read in replica `side` before it is written in any.
def ReadsFirst : List α -> Bool -> ι -> Prop
  | [], _, _ => False
  | a :: rest, side, i => Touches reads a side i ∨ hit writes a i = none ∧ ReadsFirst rest side i

end Runs

variable {first second : List (Op α ι)}

-- Which replicas of a place are up to date.
inductive Status
  | fresh
  | only (side : Bool)
  | both
deriving DecidableEq

namespace Status

def Readable : Status -> Bool -> Prop
  | .fresh, _ => True
  | .only side, wanted => side = wanted
  | .both, _ => True

def Copyable (status : Status) (into : Bool) : Prop := status = .only (!into) ∨ status = .both

def after (writes : α -> Option (Access ι)) (i : ι) (status : Status) : Op α ι -> Status
  | .act a => (hit writes a i).elim status .only
  | .copy _ locs => if i ∈ locs then .both else status

def afterAll (writes : α -> Option (Access ι)) (i : ι) (status : Status) (ops : List (Op α ι)) : Status :=
  ops.foldl (fun status op => status.after writes i op) status

variable (writes : α -> Option (Access ι))

include writes

@[simp] lemma afterAll_nil (i : ι) (status : Status) :
    status.afterAll writes i ([] : List (Op α ι)) = status := rfl

@[simp] lemma afterAll_cons (i : ι) (status : Status) (op : Op α ι)
    (ops : List (Op α ι)) :
    status.afterAll writes i (op :: ops) = (status.after writes i op).afterAll writes i ops := rfl

@[simp] lemma afterAll_append (i : ι) (status : Status) :
    status.afterAll writes i (first ++ second) =
      (status.afterAll writes i first).afterAll writes i second :=
  foldl_append ..

end Status

section Safety

variable (reads : α -> List (Access ι)) (writes : α -> Option (Access ι))

def CopiesOk : (ι -> Status) -> List (Op α ι) -> Prop
  | _, [] => True
  | status, .act a :: rest => CopiesOk (fun i => (status i).after writes i (.act a)) rest
  | status, .copy into locs :: rest =>
    (∀ i ∈ locs, (status i).Copyable into) ∧
      CopiesOk (fun i => (status i).after writes i (.copy into locs)) rest

def ReadsOk : (ι -> Status) -> List (Op α ι) -> Prop
  | _, [] => True
  | status, .act a :: rest =>
    (∀ side i, Touches reads a side i -> (status i).Readable side) ∧
      ReadsOk (fun i => (status i).after writes i (.act a)) rest
  | status, .copy into locs :: rest => ReadsOk (fun i => (status i).after writes i (.copy into locs)) rest

lemma copiesOk_append (status : ι -> Status) :
    CopiesOk writes status (first ++ second) ↔
      CopiesOk writes status first ∧
        CopiesOk writes (fun i => (status i).afterAll writes i first) second := by
  induction first generalizing status with
  | nil => simp [CopiesOk]
  | cons op rest ih => cases op <;> simp [CopiesOk, ih, and_assoc]

lemma readsOk_append (status : ι -> Status) :
    ReadsOk reads writes status (first ++ second) ↔
      ReadsOk reads writes status first ∧
        ReadsOk reads writes (fun i => (status i).afterAll writes i first) second := by
  induction first generalizing status with
  | nil => simp [ReadsOk]
  | cons op rest ih => cases op <;> simp [ReadsOk, ih, and_assoc]

end Safety

omit [DecidableEq ι] in
@[simp] lemma acts_append :
    acts (first ++ second) = acts first ++ acts second := by
  induction first with
  | nil => rfl
  | cons op rest ih => cases op <;> simp [acts, ih]

variable {files : Bool -> ι -> V} {mem : ι -> V}

section Coherence

variable {reads : α -> List (Access ι)} {writes : α -> Option (Access ι)}
  {meaning : α -> List (List V) -> ι -> V}

def Holds (status : Status) (files : Bool -> ι -> V) (mem : ι -> V) (i : ι) : Prop :=
  ∀ side, status ≠ .fresh -> status.Readable side -> files side i = mem i

omit [DecidableEq ι] in
lemma sources_congr {a : α} (same : ∀ side i, Touches reads a side i -> files side i = mem i) :
    sources reads files a = sources reads (fun _ => mem) a := by
  refine map_congr_left fun access member => map_congr_left fun i inside => ?_
  exact same access.side i ⟨access, member, rfl, inside⟩

lemma holds_act {a : α} {i : ι} {status : Status}
    (same : meaning a (sources reads files a) i = meaning a (sources reads (fun _ => mem) a) i)
    (holds : Holds status files mem i) :
    Holds (status.after writes i (.act a)) (apply reads writes meaning files (.act a))
      (store reads writes meaning mem a) i := by
  intro side known readable
  cases place : hit writes a i with
  | none =>
    simp only [Status.after, place, Option.elim_none] at known readable
    simpa [apply, store, place] using holds side known readable
  | some written =>
    simp only [Status.after, place, Option.elim_some, Status.Readable] at readable
    subst readable
    simpa [apply, store, place] using same

lemma holds_copy {into : Bool} {locs : List ι} {i : ι} {status : Status}
    (copyable : i ∈ locs -> status.Copyable into) (holds : Holds status files mem i) :
    Holds (status.after writes i (.copy into locs : Op α ι))
      (apply reads writes meaning files (.copy into locs)) mem i := by
  intro side known readable
  by_cases inside : i ∈ locs
  · have other : files (!into) i = mem i := by
      rcases copyable inside with rfl | rfl
      · exact holds _ (by simp) rfl
      · exact holds _ (by simp) trivial
    by_cases same : side = into
    · simp [apply, same, inside, other]
    · have flipped : side = !into := Bool.eq_not.mpr same
      simp [apply, flipped, other]
  · simp only [Status.after, inside, if_false] at known readable
    simpa [apply, inside] using holds side known readable

lemma split_eq_direct {ops : List (Op α ι)} {status : ι -> Status} (copies : CopiesOk writes status ops)
    (reading : ReadsOk reads writes status ops) (holds : ∀ i, Holds (status i) files mem i)
    (agree : ∀ side i, status i = .fresh -> ReadsFirst reads writes (acts ops) side i -> files side i = mem i) :
    split reads writes meaning files ops = direct reads writes meaning mem (acts ops) := by
  induction ops generalizing status files mem with
  | nil => rfl
  | cons op rest ih =>
    cases op with
    | act a =>
      have same : sources reads files a = sources reads (fun _ => mem) a := by
        refine sources_congr fun side i touches => ?_
        by_cases unknown : status i = .fresh
        · exact agree side i unknown (.inl touches)
        · exact holds i side unknown (reading.1 side i touches)
      simp only [split, direct, acts, same, List.cons.injEq, true_and]
      refine ih copies reading.2 (fun i => holds_act (by rw [same]) (holds i)) ?_
      intro side i unknown first
      cases place : hit writes a i with
      | none =>
        simp only [Status.after, place, Option.elim_none] at unknown
        simpa [apply, store, place] using agree side i unknown (.inr ⟨place, first⟩)
      | some written => simp [Status.after, place] at unknown
    | copy into locs =>
      refine ih copies.2 reading (fun i => holds_copy (copies.1 i) (holds i)) ?_
      intro side i unknown first
      by_cases inside : i ∈ locs
      · simp [Status.after, inside] at unknown
      · simp only [Status.after, inside, if_false] at unknown
        simpa [apply, inside] using agree side i unknown first

lemma split_append (files : Bool -> ι -> V) :
    split reads writes meaning files (first ++ second) =
      split reads writes meaning files first ++
        split reads writes meaning (first.foldl (apply reads writes meaning) files) second := by
  induction first generalizing files with
  | nil => rfl
  | cons op rest ih => cases op <;> simp [split, ih]

lemma direct_append (mem : ι -> V) (first second : List α) :
    direct reads writes meaning mem (first ++ second) =
      direct reads writes meaning mem first ++
        direct reads writes meaning (first.foldl (store reads writes meaning) mem) second := by
  induction first generalizing mem with
  | nil => rfl
  | cons a rest ih => simp [direct, ih]

@[simp] lemma length_split (files : Bool -> ι -> V) (ops : List (Op α ι)) :
    (split reads writes meaning files ops).length = (acts ops).length := by
  induction ops generalizing files with
  | nil => rfl
  | cons op rest ih => cases op <;> simp [split, acts, ih]

@[simp] lemma length_direct (mem : ι -> V) (actions : List α) :
    (direct reads writes meaning mem actions).length = actions.length := by
  induction actions generalizing mem with
  | nil => rfl
  | cons a rest ih => simp [direct, ih]

end Coherence

section Marking

variable (reads : α -> List (Access ι)) (writes : α -> Option (Access ι)) (i : ι) (mark : α -> Bool)
  (zero one : V)

def marking (a : α) (_ : List (List V)) (j : ι) : V := if mark a && decide (j = i) then one else zero

def stained (before : Bool) : Op α ι -> Bool
  | .act a => if (hit writes a i).isSome then mark a else before
  | .copy _ _ => before

def stainedAll (before : Bool) (ops : List (Op α ι)) : Bool := ops.foldl (stained writes i mark) before

def Contained (side : Bool) : Bool -> List (Op α ι) -> Prop
  | _, [] => True
  | before, .act a :: rest =>
    (mark a -> hit writes a i ≠ some side) ∧ Contained side (stained writes i mark before (.act a)) rest
  | before, .copy into locs :: rest =>
    (into = side -> i ∈ locs -> before = false) ∧ Contained side before rest

variable {writes i mark}

variable {side before after : Bool}

variable (writes i mark) in
-- The mark stays off one side, and the other carries the stain from before the operations to behind them.
def Carries (side before after : Bool) (ops : List (Op α ι)) : Prop :=
  Contained writes i mark side before ops ∧ stainedAll writes i mark before ops = after

lemma Carries.append {between : Bool} (head : Carries writes i mark side before between first)
    (tail : Carries writes i mark side between after second) :
    Carries writes i mark side before after (first ++ second) := by
  induction first generalizing before with
  | nil =>
    obtain ⟨-, rfl⟩ := head
    exact tail
  | cons op rest ih =>
    cases op with
    | act | copy =>
      obtain ⟨contained, stain⟩ := ih ⟨head.1.2, head.2⟩
      exact ⟨⟨head.1.1, contained⟩, stain⟩

lemma contained_act {a : α} (away : mark a -> hit writes a i ≠ some side)
    (clean : files side i = zero) (value : mem i = if before then one else zero) :
    apply reads writes (marking i mark zero one) files (.act a) side i = zero ∧
      store reads writes (marking i mark zero one) mem a i =
        if stained writes i mark before (.act a) then one else zero := by
  constructor
  · by_cases here : hit writes a i = some side
    · have unmarked : mark a = false := Bool.eq_false_iff.mpr fun marked => away marked here
      simp [apply, here, marking, unmarked]
    · simp [apply, here, clean]
  · by_cases written : (hit writes a i).isSome
    · simp [store, stained, written, marking]
    · simp [store, stained, written, value]

lemma contained_run {ops : List (Op α ι)} {status : ι -> Status}
    (copies : CopiesOk writes status ops) (contained : Contained writes i mark side before ops)
    (holds : Holds (status i) files mem i) (clean : files side i = zero)
    (value : mem i = if before then one else zero) :
    ops.foldl (apply reads writes (marking i mark zero one)) files side i = zero ∧
      (acts ops).foldl (store reads writes (marking i mark zero one)) mem i =
        if stainedAll writes i mark before ops then one else zero := by
  induction ops generalizing status files mem before with
  | nil => exact ⟨clean, value⟩
  | cons op rest ih =>
    cases op with
    | act a =>
      obtain ⟨clean, value⟩ := contained_act reads zero one contained.1 clean value
      exact ih copies contained.2 (holds_act rfl holds) clean value
    | copy into locs =>
      refine ih copies.2 contained.2 (holds_copy (copies.1 i) holds) ?_ value
      by_cases here : side = into ∧ i ∈ locs
      · obtain ⟨rfl, inside⟩ := here
        have unstained := contained.1 rfl inside
        have other : files (!side) i = mem i := by
          rcases copies.1 i inside with known | known
          · exact holds _ (by simp [known]) (by simp [known, Status.Readable])
          · exact holds _ (by simp [known]) (by simp [known, Status.Readable])
        simp [apply, inside, other, value, unstained]
      · simp [apply, here, clean]

lemma split_ne_direct {before : List (Op α ι)} {reader : α} {later : List (Op α ι)}
    (copies : CopiesOk writes (fun _ => .fresh) before)
    (carries : Carries writes i mark side false true before) (touches : Touches reads reader side i)
    (different : zero ≠ one) :
    split reads writes (marking i mark zero one) (fun _ _ => zero) (before ++ .act reader :: later) ≠
      direct reads writes (marking i mark zero one) (fun _ => zero)
        (acts (before ++ .act reader :: later)) := by
  intro same
  have nothing : Holds .fresh (fun _ _ => zero) (fun _ => zero) i := fun _ known => absurd rfl known
  obtain ⟨clean, value⟩ := contained_run reads zero one copies carries.1 nothing rfl rfl
  rw [acts_append, split_append, direct_append] at same
  have seen := (append_inj same (by simp)).2
  simp only [split, acts, direct, List.cons.injEq, sources, map_inj_left] at seen
  obtain ⟨access, member, rfl, inside⟩ := touches
  have equal := seen.1 access member i inside
  rw [clean, value, carries.2, if_pos rfl] at equal
  exact different equal

end Marking

end Replica
