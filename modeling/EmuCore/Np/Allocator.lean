import EmuCore.Lib.Transition
import Mathlib.Tactic

namespace EmuCore.Np

open List Transition

structure Pool where
  addr : Nat
  size : Nat
  mapped : 0 < addr
  fits : addr + size ≤ 2 ^ 32

def sub32 (a b : Nat) : Nat := (a + 2 ^ 32 - b) % 2 ^ 32

def align4 (size : Nat) : Nat := (size + 3) % 2 ^ 32 / 4 * 4

-- The entries of the map, offset and size, in the order of their keys.
abbrev Allocs := List (Nat × Nat)

def Allocs.emplace (offset size : Nat) : Allocs -> Allocs
  | [] => [(offset, size)]
  | a :: rest =>
    if offset < a.1 then (offset, size) :: a :: rest
    else if offset = a.1 then a :: rest
    else a :: Allocs.emplace offset size rest

-- Erases the entry of a key, or gives it a new size.
def Allocs.assign (offset : Nat) (size : Option Nat) (allocs : Allocs) : Allocs :=
  allocs.filterMap fun a => if a.1 = offset then size.map (offset, ·) else some a

structure Allocator where
  avail : Nat
  allocs : Allocs

def findSpace (allocSize : Nat) : Nat -> Allocs -> Nat × Bool
  | lastFree, [] => (lastFree, false)
  | lastFree, a :: rest =>
    if allocSize ≤ sub32 a.1 lastFree then (lastFree, true) else findSpace allocSize (a.1 + a.2) rest

section

variable (pool : Pool) (s : Allocator)

def allocate (size : Nat) : Nat × Allocator :=
  if size = 0 then (0, s)
  else if s.avail < align4 size then (0, s)
  else
    let (lastFree, foundSpace) := findSpace (align4 size) 0 s.allocs
    if !foundSpace ∧ sub32 pool.size lastFree < align4 size then (0, s)
    else (pool.addr + lastFree, ⟨s.avail - align4 size, s.allocs.emplace lastFree (align4 size)⟩)

-- The size of a live block; without one the code stops.
def live (addr : Nat) : Option Nat :=
  if pool.addr ≤ addr ∧ addr < (pool.addr + pool.size) % 2 ^ 32 then s.allocs.lookup (addr - pool.addr) else none

def free (addr : Nat) : Option Allocator :=
  (live pool s addr).map fun size => ⟨s.avail + size, s.allocs.assign (addr - pool.addr) none⟩

def shrinkAllocation (addr newSize : Nat) : Option Allocator :=
  (live pool s addr).bind fun size =>
    if newSize ≤ size then some ⟨s.avail + (size - newSize), s.allocs.assign (addr - pool.addr) (some newSize)⟩
    else none

end

inductive Op
  | allocate (size : Nat)
  | free (addr : Nat)
  | shrinkAllocation (addr newSize : Nat)

-- No size within three of 2 ^ 32, and a block keeps a multiple of four.
def Op.Admitted : Op -> Prop
  | .allocate size => size + 3 < 2 ^ 32
  | .free _ => True
  | .shrinkAllocation _ newSize => newSize ≠ 0 ∧ 4 ∣ newSize

instance : DecidablePred Op.Admitted := fun op => by
  cases op <;> unfold Op.Admitted <;> infer_instance

def step (pool : Pool) (s : Allocator) : Op -> Option Allocator
  | .allocate size => some (allocate pool s size).2
  | .free addr => free pool s addr
  | .shrinkAllocation addr newSize => shrinkAllocation pool s addr newSize

def allocator (pool : Pool) : System Allocator Op where
  init := fun s => s = ⟨pool.size, []⟩
  step := fun s op => if op.Admitted then step pool s op else none

def Laid (stop : Nat) : Nat -> Allocs -> Prop
  | pos, [] => pos ≤ stop
  | pos, a :: rest => pos ≤ a.1 ∧ 4 ∣ a.1 ∧ 4 ∣ a.2 ∧ 0 < a.2 ∧ Laid stop (a.1 + a.2) rest

variable {stop pos next size : Nat} {allocs : Allocs}

lemma Laid.mono (laid : Laid stop pos allocs) (lower : next ≤ pos) : Laid stop next allocs := by
  cases allocs with
  | nil => exact lower.trans laid
  | cons a rest => exact ⟨lower.trans laid.1, laid.2⟩

def used (allocs : Allocs) : Nat := (allocs.map Prod.snd).sum

lemma Laid.within (laid : Laid stop pos allocs) :
    pos + used allocs ≤ stop ∧ ∀ a ∈ allocs, pos ≤ a.1 ∧ 4 ∣ a.1 ∧ a.1 + a.2 ≤ stop := by
  induction allocs generalizing pos with
  | nil => exact ⟨laid, by simp⟩
  | cons a rest ih =>
    obtain ⟨above, aligned, -, some, laid⟩ := laid
    obtain ⟨ends, later⟩ := ih laid
    refine ⟨by simp only [used, map_cons, sum_cons] at *; omega,
      forall_mem_cons.mpr ⟨⟨above, aligned, by omega⟩, fun b member => ?_⟩⟩
    have := later b member
    omega

lemma Laid.apart (laid : Laid stop pos allocs) : allocs.Pairwise fun a b => a.1 + a.2 ≤ b.1 := by
  induction allocs generalizing pos with
  | nil => exact .nil
  | cons a rest ih => exact .cons (fun b member => (laid.2.2.2.2.within.2 b member).1) (ih laid.2.2.2.2)

lemma Laid.assign (laid : Laid stop pos allocs) {offset : Nat} (found : allocs.lookup offset = some size)
    (new : Option Nat) (smaller : ∀ n ∈ new, n ≤ size ∧ n ≠ 0 ∧ 4 ∣ n) :
    Laid stop pos (allocs.assign offset new) ∧ used (allocs.assign offset new) + size = used allocs + new.getD 0 := by
  induction allocs generalizing pos with
  | nil => cases found
  | cons a rest ih =>
    obtain ⟨above, aligned, whole, full, laid⟩ := laid
    obtain ⟨start, count⟩ := a
    by_cases here : start = offset
    · subst here
      obtain rfl : count = size := by simpa using found
      have others : Allocs.assign start new rest = rest := by
        refine (filterMap_congr fun b member => ?_).trans filterMap_some
        have := (laid.within.2 b member).1
        exact if_neg (by omega)
      rw [Allocs.assign, filterMap_cons, if_pos rfl, ← Allocs.assign, others]
      cases new with
      | none => exact ⟨laid.mono (by omega), by simp [used]; omega⟩
      | some n =>
        obtain ⟨less, more, kept⟩ := smaller n rfl
        exact ⟨⟨above, aligned, kept, Nat.pos_of_ne_zero more, laid.mono (Nat.add_le_add_left less _)⟩,
          by simp [used]; omega⟩
    · have later : rest.lookup offset = some size := by
        rwa [lookup_cons, beq_false_of_ne (Ne.symm here)] at found
      obtain ⟨laid, total⟩ := ih laid later
      rw [Allocs.assign, filterMap_cons, if_neg here, ← Allocs.assign]
      exact ⟨⟨above, aligned, whole, full, laid⟩, by simp only [used, map_cons, sum_cons] at *; omega⟩

-- A gap of the size behind a position.
def Room (stop pos size : Nat) (allocs : Allocs) : Prop :=
  ∃ start, pos ≤ start ∧ start + size ≤ stop ∧ ∀ a ∈ allocs, start + size ≤ a.1 ∨ a.1 + a.2 ≤ start

lemma sub32_eq {a b : Nat} (order : b ≤ a) (small : a < 2 ^ 32) : sub32 a b = a - b := by
  rw [sub32]
  omega

lemma findSpace_spec (laid : Laid stop pos allocs) (small : stop < 2 ^ 32) (aligned : 4 ∣ pos) (some : 0 < size)
    (whole : 4 ∣ size) {place : Nat} {found : Bool} (ran : findSpace size pos allocs = (place, found)) :
    pos ≤ place ∧ (Room stop pos size allocs ↔ found = true ∨ size ≤ sub32 stop place) ∧
      (found = true ∨ size ≤ sub32 stop place -> Laid stop pos (allocs.emplace place size) ∧
        used (allocs.emplace place size) = used allocs + size) := by
  induction allocs generalizing pos with
  | nil =>
    cases ran
    rw [sub32_eq laid small]
    have inside : place ≤ stop := laid
    refine ⟨le_rfl, ⟨?_, fun room => ?_⟩, fun room => ?_⟩
    · rintro ⟨start, above, below, -⟩
      exact .inr (by omega)
    · have := room.resolve_left Bool.false_ne_true
      exact ⟨place, le_rfl, by omega, by simp⟩
    · have := room.resolve_left Bool.false_ne_true
      exact ⟨⟨le_rfl, aligned, whole, some, show place + size ≤ stop by omega⟩, by simp [used, Allocs.emplace]⟩
  | cons a rest ih =>
    obtain ⟨above, alignedA, wholeA, someA, laid⟩ := laid
    have ends := laid.within
    rw [findSpace, sub32_eq above (by omega)] at ran
    split at ran
    next fits =>
      cases ran
      refine ⟨le_rfl, iff_of_true ⟨place, le_rfl, by omega, forall_mem_cons.mpr ⟨.inl (by omega), fun b member => ?_⟩⟩ (.inl rfl),
        fun _ => ?_⟩
      · have := (ends.2 b member).1
        exact .inl (by omega)
      · rw [Allocs.emplace, if_pos (by omega)]
        exact ⟨⟨le_rfl, aligned, whole, some, by omega, alignedA, wholeA, someA, laid⟩, by simp [used, add_comm]⟩
    next short =>
      obtain ⟨behind, exact_, placed⟩ := ih laid (dvd_add alignedA wholeA) ran
      refine ⟨by omega, Iff.trans ⟨?_, ?_⟩ exact_, fun room => ?_⟩
      · rintro ⟨start, low, high, clear⟩
        have first := clear a mem_cons_self
        exact ⟨start, by omega, high, fun b member => clear b (mem_cons_of_mem _ member)⟩
      · rintro ⟨start, low, high, clear⟩
        exact ⟨start, by omega, high, forall_mem_cons.mpr ⟨.inr low, clear⟩⟩
      · obtain ⟨laid, total⟩ := placed room
        rw [Allocs.emplace, if_neg (by omega), if_neg (by omega)]
        exact ⟨⟨above, alignedA, wholeA, someA, laid⟩, by simp only [used, map_cons, sum_cons] at *; omega⟩

structure Sound (pool : Pool) (s : Allocator) : Prop where
  laid : Laid pool.size 0 s.allocs
  total : s.avail + used s.allocs = pool.size

variable {pool : Pool} {s after : Allocator} {op : Op}

lemma Sound.allocate (sound : Sound pool s) (some : size ≠ 0) (small : size + 3 < 2 ^ 32) :
    Sound pool (allocate pool s size).2 ∧
      ((Np.allocate pool s size).1 = 0 ↔ ¬Room pool.size 0 (align4 size) s.allocs) := by
  have rounded : 0 < align4 size ∧ 4 ∣ align4 size := by
    rw [align4, Nat.mod_eq_of_lt small]
    exact ⟨by omega, Nat.dvd_mul_left ..⟩
  have mapped := pool.mapped
  have fits := pool.fits
  cases ran : findSpace (align4 size) 0 s.allocs with
  | mk place found =>
    obtain ⟨-, room, placed⟩ := findSpace_spec sound.laid (by omega) (dvd_zero 4) rounded.1 rounded.2 ran
    have clear : Room pool.size 0 (align4 size) s.allocs -> align4 size ≤ s.avail := fun gap => by
      obtain ⟨laid, total⟩ := placed (room.mp gap)
      have := laid.within.1
      have := sound.total
      omega
    rw [Np.allocate, if_neg some, ran]
    dsimp only
    split
    next scarce => exact ⟨sound, iff_of_true rfl fun gap => absurd (clear gap) (by omega)⟩
    next enough =>
      have refused : (!found) = true ∧ sub32 pool.size place < align4 size ↔
          ¬Room pool.size 0 (align4 size) s.allocs := by
        rw [room]
        simp
      split
      next short => exact ⟨sound, iff_of_true rfl (refused.mp short)⟩
      next long =>
        have gap := not_not.mp (mt refused.mpr long)
        obtain ⟨laid, total⟩ := placed (room.mp gap)
        have := sound.total
        exact ⟨⟨laid, by dsimp only; omega⟩, iff_of_false (by dsimp only; omega) (not_not.mpr gap)⟩

lemma Sound.step (sound : Sound pool s) (admitted : op.Admitted) (move : step pool s op = some after) :
    Sound pool after := by
  cases op with
  | allocate size =>
    cases move
    by_cases none : size = 0
    · rwa [Np.allocate, if_pos none]
    · exact (sound.allocate none admitted).1
  | free addr =>
    obtain ⟨size, found, rfl⟩ := Option.map_eq_some_iff.mp move
    obtain ⟨laid, total⟩ := sound.laid.assign (Option.ite_none_right_eq_some.mp found).2 none (by simp)
    have := sound.total
    exact ⟨laid, by simp at total; dsimp only; omega⟩
  | shrinkAllocation addr newSize =>
    obtain ⟨size, found, more⟩ := Option.bind_eq_some_iff.mp move
    obtain ⟨less, rfl⟩ := Option.ite_some_none_eq_some.mp more
    obtain ⟨laid, total⟩ := sound.laid.assign (Option.ite_none_right_eq_some.mp found).2 (some newSize)
      (by rintro _ ⟨⟩; exact ⟨less, admitted⟩)
    have := sound.total
    exact ⟨laid, by simp at total; dsimp only; omega⟩

def smallPool : Pool := ⟨16, 10, by decide, by decide⟩

end EmuCore.Np
