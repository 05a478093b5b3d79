import EmuCore.Lib.Transition
import Mathlib.Tactic

namespace EmuCore.Pkg.Extract

open Function List

variable {P T : Type} [DecidableEq P] [DecidableEq T]

structure InstallEntry (P : Type) where
  path : P
  type : BitVec 32

def InstallEntry.overwrites (entry : InstallEntry P) : Bool := entry.type &&& 0x80000000 ≠ 0

-- A pointer into the deque of the entries is its index there.
structure Filled (P : Type) where
  entries : List (InstallEntry P) := []
  all : P -> Option Nat := fun _ => none

def Filled.push (f : Filled P) (entry : InstallEntry P) : Filled P :=
  if (f.all entry.path).isSome && !entry.overwrites then { f with entries := f.entries ++ [entry] }
  else ⟨f.entries ++ [entry], update f.all entry.path (some f.entries.length)⟩

def fillData (entries : List (InstallEntry P)) : Filled P := entries.foldl Filled.push {}

def Filled.isDominating (f : Filled P) (index : Nat) : Bool :=
  f.entries[index]?.any fun entry => f.all entry.path = some index

inductive Place
  | ready
  | working (index : Nat)
  | stopped
deriving DecidableEq

structure State (T : Type) where
  entryIndexer : Nat
  place : T -> Place
  taken : List (T × Nat)
  extracted : List Nat

-- One turn of extract_worker is two steps: the bounded increment, and the entry.
def step (f : Filled P) (s : State T) (t : T) : Option (State T) :=
  match s.place t with
  | .ready =>
    let index := s.entryIndexer
    if index < f.entries.length then
      some { s with entryIndexer := index + 1, place := update s.place t (.working index), taken := s.taken ++ [(t, index)] }
    else some { s with place := update s.place t .stopped }
  | .working index =>
    some { s with
      place := update s.place t .ready
      extracted := if f.isDominating index then s.extracted ++ [index] else s.extracted }
  | .stopped => none

def workers (T : Type) [DecidableEq T] (f : Filled P) : Transition.System (State T) T where
  init := fun s => s = ⟨0, fun _ => .ready, [], []⟩
  step := step f

-- The last one flagged after the first, or the first.
def chosen (entries : List (InstallEntry P)) (path : P) : Option Nat :=
  match entries.zipIdx.filter fun entry => entry.1.path = path with
  | [] => none
  | first :: later => some ((later.filter fun entry => entry.1.overwrites).getLastD first).2

variable {entries : List (InstallEntry P)} {f : Filled P} {s next : State T} {t : T}

lemma fillData_concat (entry : InstallEntry P) : fillData (entries ++ [entry]) = (fillData entries).push entry := by
  rw [fillData, foldl_append]
  rfl

lemma entries_fillData : (fillData entries).entries = entries := by
  induction entries using reverseRecOn with
  | nil => rfl
  | append_singleton entries entry ih =>
    rw [fillData_concat, Filled.push]
    split <;> simp [ih]

lemma chosen_concat_other {entry : InstallEntry P} {path : P} (other : entry.path ≠ path) :
    chosen (entries ++ [entry]) path = chosen entries path := by
  simp [chosen, zipIdx_append, other]

lemma all_fillData (path : P) : (fillData entries).all path = chosen entries path := by
  induction entries using reverseRecOn with
  | nil => rfl
  | append_singleton entries entry ih =>
    rw [fillData_concat, Filled.push]
    by_cases own : entry.path = path
    · subst own
      rw [ih, entries_fillData, chosen, chosen, zipIdx_append, filter_append]
      cases found : entries.zipIdx.filter fun known => known.1.path = entry.path with
      | nil => simp
      | cons first later => cases flagged : entry.overwrites <;> simp [flagged, ih, chosen, found]
    · rw [chosen_concat_other own, ← ih]
      split
      · rfl
      · exact update_of_ne (Ne.symm own) ..

section

variable {dominating : Nat -> Bool} {bound index : Nat} {works after : T -> Nat -> Prop} {extracted : List Nat}

-- What is below the bound is in one worker's hands, or done.
structure Tally (dominating : Nat -> Bool) (bound : Nat) (works : T -> Nat -> Prop) (extracted : List Nat) : Prop where
  alone : ∀ t u index, works t index -> works u index -> t = u
  held : ∀ t index, works t index -> index < bound ∧ extracted.count index = 0
  counted : ∀ index, (∀ t, ¬works t index) ->
    extracted.count index = if index < bound ∧ dominating index then 1 else 0

variable (tally : Tally dominating bound works extracted)

include tally

omit [DecidableEq T]

lemma Tally.claim (moved : ∀ u index, after u index ↔ works u index ∨ u = t ∧ index = bound) :
    Tally dominating (bound + 1) after extracted := by
  have unclaimed (u : T) : ¬works u bound := fun there => lt_irrefl bound (tally.held u bound there).1
  constructor
  case alone =>
    intro u v index first second
    rcases (moved u index).mp first with first | ⟨rfl, rfl⟩
    · rcases (moved v index).mp second with second | ⟨rfl, rfl⟩
      · exact tally.alone u v index first second
      · exact absurd first (unclaimed u)
    · exact (((moved v index).mp second).resolve_left (unclaimed v)).1.symm
  case held =>
    intro u index there
    rcases (moved u index).mp there with there | ⟨rfl, rfl⟩
    · exact ⟨(tally.held u index there).1.trans (Nat.lt_succ_self _), (tally.held u index there).2⟩
    · exact ⟨Nat.lt_succ_self _, by simp [tally.counted index unclaimed]⟩
  case counted =>
    intro index nobody
    have other : index ≠ bound := fun same => nobody t ((moved t index).mpr (.inr ⟨rfl, same⟩))
    rw [tally.counted index fun u there => nobody u ((moved u index).mpr (.inl there))]
    simp only [show index < bound + 1 ↔ index < bound by omega]

lemma Tally.extract (here : works t index) (only : ∀ other, works t other -> other = index)
    (moved : ∀ u index, after u index ↔ works u index ∧ u ≠ t) :
    Tally dominating bound after (if dominating index then extracted ++ [index] else extracted) := by
  have known := tally.held t index here
  constructor
  case alone =>
    intro u v index first second
    exact tally.alone u v index ((moved u index).mp first).1 ((moved v index).mp second).1
  case held =>
    intro u other there
    obtain ⟨there, away⟩ := (moved u other).mp there
    have apart : index ≠ other := by
      rintro rfl
      exact away (tally.alone u t index there here)
    split <;> simpa [apart] using tally.held u other there
  case counted =>
    intro other nobody
    by_cases own : index = other
    · subst own
      split <;> simp_all
    · have before := tally.counted other fun u there => nobody u ((moved u other).mpr ⟨there, ?_⟩)
      · split <;> simpa [own] using before
      rintro rfl
      exact own (only other there).symm

end

structure Inv (f : Filled P) (s : State T) : Prop where
  bounded : s.entryIndexer ≤ f.entries.length
  once : s.taken.map Prod.snd = range s.entryIndexer
  stopped : ∀ t, s.place t = .stopped -> s.entryIndexer = f.entries.length
  tally : Tally f.isDominating s.entryIndexer (fun t index => s.place t = .working index) s.extracted

omit [DecidableEq P] in
lemma Inv.step (inv : Inv f s) (move : step f s t = some next) : Inv f next := by
  unfold Extract.step at move
  split at move
  next idle =>
    dsimp only at move
    split at move
    next more =>
      cases move
      refine ⟨more, by simp [inv.once, range_succ], fun u there => ?_, inv.tally.claim (t := t) fun u index => ?_⟩
      · by_cases same : u = t
        · simp [same] at there
        · exact absurd (inv.stopped u (by simpa [same] using there)) more.ne
      · by_cases same : u = t <;> simp [same, idle, eq_comm]
    next ended =>
      cases move
      have full : s.entryIndexer = f.entries.length := le_antisymm inv.bounded (not_lt.mp ended)
      refine ⟨inv.bounded, inv.once, fun _ _ => full, ?_⟩
      convert inv.tally using 3 with u index
      by_cases same : u = t <;> simp [same, idle]
  next index here =>
    cases move
    refine ⟨inv.bounded, inv.once, fun u there => ?_, inv.tally.extract here ?_ fun u other => ?_⟩
    · by_cases same : u = t
      · simp [same] at there
      · exact inv.stopped u (by simpa [same] using there)
    · intro other there
      rw [here] at there
      cases there
      rfl
    · by_cases same : u = t <;> simp [same]
  next => cases move

omit [DecidableEq P] in
lemma reachable_inv (reach : (workers T f).Reachable s) : Inv f s := by
  refine reach.invariant ?_ fun _ _ _ inv move => inv.step move
  rintro _ rfl
  refine ⟨Nat.zero_le _, rfl, by simp, by simp, by simp, by simp⟩

lemma chosen_path {path : P} {index : Nat} (known : chosen entries path = some index) :
    ∃ entry, entries[index]? = some entry ∧ entry.path = path := by
  unfold chosen at known
  split at known
  next => cases known
  next first later split =>
    obtain rfl := Option.some.inj known
    generalize last : (later.filter fun entry => entry.1.overwrites).getLastD first = entry
    have member : entry ∈ first :: later := last ▸ cons_subset_cons first (filter_subset_self _) getLastD_mem_cons
    obtain ⟨listed, own⟩ := mem_filter.mp (split ▸ member)
    exact ⟨entry.1, mem_zipIdx_iff_getElem?.mp listed, of_decide_eq_true own⟩

-- Entries 0 and 2 have one path, and entry 2 may overwrite.
def threeEntries : List (InstallEntry Bool) := [⟨true, 3⟩, ⟨false, 3⟩, ⟨true, 0x80000003⟩]

def bothTurns : List Bool := [true, false, false, true, true, true, true, false]

end EmuCore.Pkg.Extract
