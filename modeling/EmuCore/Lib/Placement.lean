import EmuCore.Lib.Slice

-- Lists of values at places of a store.
namespace Placement

open Slice List

variable {A : Type}

structure Placed (A : Type) where
  start : Nat
  values : List A
deriving DecidableEq

namespace Placed

def stop (unit : Placed A) : Nat := unit.start + unit.values.length

def Apart (unit other : Placed A) : Prop :=
  unit.values = [] ∨ other.values = [] ∨ unit.stop ≤ other.start ∨ other.stop ≤ unit.start

lemma Apart.symm {unit other : Placed A} (apart : unit.Apart other) : other.Apart unit := by
  rcases apart with none | none | before | after
  · exact .inr (.inl none)
  · exact .inl none
  · exact .inr (.inr (.inr before))
  · exact .inr (.inr (.inl after))

def Held (memory : Nat -> A) (unit : Placed A) : Prop := slice memory unit.start unit.values.length = unit.values

lemma Held.write {memory : Nat -> A} {unit : Placed A} (held : unit.Held memory) {pos : Nat} {values : List A}
    (apart : unit.values ≠ [] -> unit.stop ≤ pos ∨ pos + values.length ≤ unit.start) :
    unit.Held (put memory pos values) := by
  refine (slice_congr _ fun i inside => put_apart memory ?_).trans held
  have bounds := apart (ne_nil_of_length_pos (by omega))
  rw [stop] at bounds
  omega

lemma Held.extend {memory : Nat -> A} {start : Nat} {before : List A} (held : Held memory ⟨start, before⟩)
    (values : List A) : Held (put memory (start + before.length) values) ⟨start, before ++ values⟩ := by
  have old : Held (put memory (start + before.length) values) ⟨start, before⟩ := held.write fun _ => .inl le_rfl
  rw [Held] at old ⊢
  rw [length_append, slice_add, old, slice_put]

end Placed

def Spread : Nat -> List (Placed A) -> Nat -> Prop
  | pos, [], stop => pos ≤ stop
  | pos, unit :: units, stop =>
    (unit.values = [] ∧ Spread pos units stop) ∨ (pos ≤ unit.start ∧ Spread unit.stop units stop)

variable {units later : List (Placed A)} {unit : Placed A} {pos next stop : Nat}

section

variable (spread : Spread pos units stop)

include spread

lemma Spread.mono (lower : next ≤ pos) {last : Nat} (upper : stop ≤ last) :
    Spread next units last := by
  induction units generalizing pos next with
  | nil => exact lower.trans (spread.trans upper)
  | cons unit units ih =>
    rcases spread with ⟨none, rest⟩ | ⟨after, rest⟩
    · exact .inl ⟨none, ih rest lower⟩
    · exact .inr ⟨lower.trans after, ih rest le_rfl⟩

lemma Spread.le : pos ≤ stop := by
  induction units generalizing pos with
  | nil => exact spread
  | cons unit units ih =>
    rcases spread with ⟨-, rest⟩ | ⟨after, rest⟩
    · exact ih rest
    · have := ih rest
      unfold Placed.stop at this
      omega

lemma Spread.within (member : unit ∈ units) (some : unit.values ≠ []) :
    pos ≤ unit.start ∧ unit.stop ≤ stop := by
  induction units generalizing pos with
  | nil => cases member
  | cons first units ih =>
    rcases mem_cons.mp member with rfl | inside
    · rcases spread with ⟨none, -⟩ | ⟨after, rest⟩
      · exact absurd none some
      · exact ⟨after, rest.le⟩
    · rcases spread with ⟨-, rest⟩ | ⟨after, rest⟩
      · exact ih rest inside
      · have bounds := ih rest inside
        unfold Placed.stop at bounds ⊢
        omega

lemma Spread.pairwise : units.Pairwise Placed.Apart := by
  induction units generalizing pos with
  | nil => exact .nil
  | cons first units ih =>
    rcases spread with ⟨none, rest⟩ | ⟨-, rest⟩
    · exact .cons (fun other _ => .inl none) (ih rest)
    refine .cons (fun other member => ?_) (ih rest)
    by_cases some : other.values = []
    · exact .inr (.inl some)
    · exact .inr (.inr (.inl (rest.within member some).1))

end

lemma Spread.append (spread : Spread pos units next) (rest : Spread next later stop) :
    Spread pos (units ++ later) stop := by
  induction units generalizing pos with
  | nil => exact rest.mono spread le_rfl
  | cons unit units ih =>
    rcases spread with ⟨none, inside⟩ | ⟨after, inside⟩
    · exact .inl ⟨none, ih inside⟩
    · exact .inr ⟨after, ih inside⟩

lemma Spread.empty (spread : Spread pos units pos) : ∀ unit ∈ units, unit.values = [] := by
  intro unit member
  by_contra some
  have bounds := spread.within member some
  have size := length_pos_of_ne_nil some
  unfold Placed.stop at bounds
  omega

def Stacked : Nat -> List (Placed A) -> Nat -> Prop
  | pos, [], stop => pos = stop
  | pos, unit :: units, stop => (unit.values ≠ [] -> unit.start = pos) ∧ Stacked (pos + unit.values.length) units stop

lemma Stacked.spread (stacked : Stacked pos units stop) : Spread pos units stop := by
  induction units generalizing pos with
  | nil => exact le_of_eq stacked
  | cons unit units ih =>
    have rest := ih stacked.2
    by_cases none : unit.values = []
    · refine .inl ⟨none, ?_⟩
      simpa [none] using rest
    · have start := stacked.1 none
      refine .inr ⟨le_of_eq start.symm, ?_⟩
      rwa [Placed.stop, start]

lemma stacked_append :
    Stacked pos (units ++ later) stop ↔ ∃ next, Stacked pos units next ∧ Stacked next later stop := by
  induction units generalizing pos with
  | nil =>
    constructor
    · exact fun stacked => ⟨pos, rfl, stacked⟩
    · rintro ⟨next, rfl, stacked⟩
      exact stacked
  | cons unit units ih =>
    constructor
    · rintro ⟨first, rest⟩
      obtain ⟨next, before, after⟩ := ih.mp rest
      exact ⟨next, ⟨first, before⟩, after⟩
    · rintro ⟨next, ⟨first, before⟩, after⟩
      exact ⟨first, ih.mpr ⟨next, before, after⟩⟩

lemma stacked_of_empty (empty : ∀ unit ∈ units, unit.values = []) (pos : Nat) : Stacked pos units pos := by
  induction units with
  | nil => rfl
  | cons unit units ih =>
    obtain ⟨none, rest⟩ := forall_mem_cons.mp empty
    refine ⟨fun some => absurd none some, ?_⟩
    simpa [none] using ih rest

lemma Stacked.extend {start : Nat} {before : List A} (stacked : Stacked pos (units ++ [⟨start, before⟩]) stop)
    (ends : start + before.length = stop) (values : List A) :
    Stacked pos (units ++ [⟨start, before ++ values⟩]) (stop + values.length) := by
  obtain ⟨next, first, -, size⟩ := stacked_append.mp stacked
  have size : next + before.length = stop := size
  refine stacked_append.mpr ⟨next, first, fun _ => ?_, ?_⟩
  · dsimp only
    omega
  · change next + (before ++ values).length = stop + values.length
    rw [length_append]
    omega

end Placement
