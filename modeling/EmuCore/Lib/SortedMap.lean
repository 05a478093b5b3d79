import Mathlib.Tactic

/-- A finite map whose entries are kept in the order of their keys. -/
structure SortedMap (K V : Type) [LinearOrder K] where
  entries : List (K × V)
  sorted : entries.Pairwise fun a b => a.1 < b.1
deriving DecidableEq

namespace SortedMap

open List

variable {K V : Type} [LinearOrder K]

def lookup (key : K) : List (K × V) -> Option V
  | [] => none
  | entry :: rest => if entry.1 = key then some entry.2 else lookup key rest

variable {key : K} {value : V} {l : List (K × V)}

lemma lookup_mem (found : lookup key l = some value) :
    (key, value) ∈ l := by
  induction l with
  | nil => cases found
  | cons entry rest ih =>
    simp only [lookup] at found
    split at found
    next same =>
      cases found
      simp [← same]
    next => exact mem_cons_of_mem _ (ih found)

lemma lookup_before (before : ∀ entry ∈ l, key < entry.1) :
    lookup key l = none := by
  cases found : lookup key l with
  | none => rfl
  | some value => exact absurd (before _ (lookup_mem found)) (lt_irrefl key)

lemma lookup_after (after : ∀ entry ∈ l, entry.1 < key) : lookup key l = none := by
  cases found : lookup key l with
  | none => rfl
  | some value => exact absurd (after _ (lookup_mem found)) (lt_irrefl key)

lemma lookup_of_mem (sorted : l.Pairwise fun a b => a.1 < b.1) (member : (key, value) ∈ l) :
    lookup key l = some value := by
  induction l with
  | nil => cases member
  | cons entry rest ih =>
    obtain ⟨first, sorted⟩ := pairwise_cons.mp sorted
    rcases mem_cons.mp member with same | later
    · simp [lookup, ← same]
    · simp [lookup, (first _ later).ne, ih sorted later]

def insertEntry (key : K) (value : V) : List (K × V) -> List (K × V)
  | [] => [(key, value)]
  | entry :: rest =>
    if key < entry.1 then (key, value) :: entry :: rest
    else if key = entry.1 then (key, value) :: rest
    else entry :: insertEntry key value rest

lemma insertEntry_mem {entry : K × V} (member : entry ∈ insertEntry key value l) :
    entry = (key, value) ∨ entry ∈ l := by
  induction l with
  | nil => exact .inl (mem_singleton.mp member)
  | cons first rest ih =>
    simp only [insertEntry] at member
    split at member
    next => exact mem_cons.mp member
    split at member
    next =>
      rcases mem_cons.mp member with new | old
      · exact .inl new
      · exact .inr (mem_cons_of_mem _ old)
    next =>
      rcases mem_cons.mp member with same | later
      · exact .inr (same ▸ mem_cons_self)
      · exact (ih later).imp_right (mem_cons_of_mem _)

lemma insertEntry_last (value : V) (after : ∀ entry ∈ l, entry.1 < key) :
    insertEntry key value l = l ++ [(key, value)] := by
  induction l with
  | nil => rfl
  | cons entry rest ih =>
    obtain ⟨first, later⟩ := forall_mem_cons.mp after
    rw [insertEntry, if_neg first.not_gt, if_neg first.ne', ih later, cons_append]

lemma insertEntry_perm (value : V) (absent : lookup key l = none) : insertEntry key value l ~ (key, value) :: l := by
  induction l with
  | nil => exact .refl _
  | cons entry rest ih =>
    rw [lookup] at absent
    split at absent
    next => cases absent
    next differs =>
      rw [insertEntry]
      split
      next => exact .refl _
      next =>
        rw [if_neg (Ne.symm differs)]
        exact ((ih absent).cons entry).trans (.swap ..)

lemma insertEntry_sorted (key : K) (value : V) (sorted : l.Pairwise fun a b => a.1 < b.1) :
    (insertEntry key value l).Pairwise fun a b => a.1 < b.1 := by
  induction l with
  | nil => simp [insertEntry]
  | cons entry rest ih =>
    obtain ⟨first, later⟩ := pairwise_cons.mp sorted
    simp only [insertEntry]
    split
    next before =>
      refine pairwise_cons.mpr ⟨fun other member => ?_, sorted⟩
      rcases mem_cons.mp member with rfl | member
      · exact before
      · exact before.trans (first other member)
    next =>
      split
      next same => exact pairwise_cons.mpr ⟨fun other member => same ▸ first other member, later⟩
      next notBefore differs =>
        refine pairwise_cons.mpr ⟨fun other member => ?_, ih later⟩
        rcases insertEntry_mem member with rfl | member
        · exact lt_of_le_of_ne (not_lt.mp notBefore) (Ne.symm differs)
        · exact first other member

lemma lookup_insertEntry (key j : K) (value : V) (l : List (K × V)) :
    lookup j (insertEntry key value l) = if j = key then some value else lookup j l := by
  induction l with
  | nil => simp [insertEntry, lookup, eq_comm]
  | cons entry rest ih =>
    simp only [insertEntry]
    split
    next => simp [lookup, eq_comm]
    split
    next same => by_cases at_ : j = key <;> simp_all [lookup, eq_comm]
    next differs =>
      simp only [lookup, ih]
      by_cases at_ : j = key
      · simp [at_, Ne.symm differs]
      · simp [at_]

def sum (cost : V -> Nat) (l : List (K × V)) : Nat := (l.map fun entry => cost entry.2).sum

omit [LinearOrder K] in
@[simp] lemma sum_cons (cost : V -> Nat) (entry : K × V) (l : List (K × V)) :
    sum cost (entry :: l) = cost entry.2 + sum cost l := by
  simp [sum]

lemma sum_insertEntry (cost : V -> Nat) (key : K) (value : V) (sorted : l.Pairwise fun a b => a.1 < b.1) :
    sum cost (insertEntry key value l) + ((lookup key l).elim 0 cost) = sum cost l + cost value := by
  induction l with
  | nil => simp [insertEntry, lookup, sum]
  | cons entry rest ih =>
    obtain ⟨first, later⟩ := pairwise_cons.mp sorted
    simp only [insertEntry]
    split
    next before =>
      have absent : lookup key rest = none :=
        lookup_before fun other member => before.trans (first other member)
      simp [lookup, before.ne', absent]
      omega
    next =>
      split
      next same =>
        simp [lookup, same]
        omega
      next differs =>
        have rest := ih later
        simp only [sum_cons, lookup, if_neg (Ne.symm differs)]
        omega

variable (m : SortedMap K V)

def find? (key : K) : Option V := lookup key m.entries

def first? : Option (K × V) := m.entries.head?

def total (cost : V -> Nat) : Nat := sum cost m.entries

def insert (key : K) (value : V) : SortedMap K V :=
  ⟨insertEntry key value m.entries, insertEntry_sorted key value m.sorted⟩

def erase (key : K) : SortedMap K V :=
  ⟨m.entries.filter fun entry => entry.1 ≠ key, m.sorted.filter _⟩

def eraseFirst : SortedMap K V := ⟨m.entries.tail, m.sorted.tail⟩

def below (key : K) : List (K × V) := m.entries.takeWhile fun entry => entry.1 < key

def dropBelow (key : K) : SortedMap K V :=
  ⟨m.entries.dropWhile fun entry => entry.1 < key, m.sorted.sublist (List.dropWhile_sublist _)⟩

instance : EmptyCollection (SortedMap K V) := ⟨⟨[], List.Pairwise.nil⟩⟩

@[simp] lemma find?_empty (key : K) : (∅ : SortedMap K V).find? key = none := rfl

@[simp] lemma total_empty (cost : V -> Nat) : (∅ : SortedMap K V).total cost = 0 := rfl

lemma find?_eq_some {m : SortedMap K V} :
    m.find? key = some value ↔ (key, value) ∈ m.entries :=
  ⟨lookup_mem, lookup_of_mem m.sorted⟩

@[simp] lemma find?_insert (key j : K) (value : V) :
    (m.insert key value).find? j = if j = key then some value else m.find? j :=
  lookup_insertEntry key j value m.entries

lemma insert_perm (value : V) (absent : m.find? key = none) : (m.insert key value).entries ~ (key, value) :: m.entries :=
  insertEntry_perm value absent

lemma total_insert (cost : V -> Nat) (key : K) (value : V) :
    (m.insert key value).total cost + (m.find? key).elim 0 cost = m.total cost + cost value :=
  sum_insertEntry cost key value m.sorted

lemma find?_dropBelow (key j : K) :
    (m.dropBelow key).find? j = if j < key then none else m.find? j := by
  obtain ⟨l, sorted⟩ := m
  change lookup j (l.dropWhile _) = if j < key then none else lookup j l
  induction l with
  | nil => simp [lookup]
  | cons entry rest ih =>
    obtain ⟨first, later⟩ := pairwise_cons.mp sorted
    by_cases smaller : entry.1 < key
    · rw [dropWhile_cons_of_pos (by simpa using smaller), ih later]
      split
      next => rfl
      next notSmaller =>
        have differs : entry.1 ≠ j := fun same => notSmaller (same ▸ smaller)
        simp [lookup, differs]
    · rw [dropWhile_cons_of_neg (by simpa using smaller)]
      split
      next before =>
        refine lookup_before fun other member => lt_of_lt_of_le before ?_
        rcases mem_cons.mp member with rfl | member
        · exact not_lt.mp smaller
        · exact (not_lt.mp smaller).trans (first other member).le
      next => rfl

lemma total_dropBelow (cost : V -> Nat) (key : K) :
    m.total cost = sum cost (m.below key) + (m.dropBelow key).total cost := by
  simp only [total, below, dropBelow, sum, ← sum_append, ← map_append,
    takeWhile_append_dropWhile]

lemma find?_erase (key j : K) :
    (m.erase key).find? j = if j = key then none else m.find? j := by
  split
  next same =>
    cases found : (m.erase key).find? j with
    | none => rfl
    | some value =>
      have kept := (mem_filter.mp (find?_eq_some.mp found)).2
      simp [same] at kept
  next differs =>
    cases found : m.find? j with
    | none =>
      cases left : (m.erase key).find? j with
      | none => rfl
      | some value =>
        have old := find?_eq_some.mpr (mem_of_mem_filter (find?_eq_some.mp left))
        rw [found] at old
        cases old
    | some value =>
      exact find?_eq_some.mpr (mem_filter.mpr ⟨find?_eq_some.mp found, by simpa using differs⟩)

lemma erase_absent (absent : m.find? key = none) : m.erase key = m := by
  have kept : m.entries.filter (fun entry => entry.1 ≠ key) = m.entries := by
    refine filter_eq_self.mpr fun entry present => decide_eq_true fun same => ?_
    have found := find?_eq_some.mpr present
    rw [same, absent] at found
    cases found
  simp only [erase, kept]

section

variable {m : SortedMap K V}

lemma first?_of_find? (found : m.find? key = some value)
    (least : ∀ j, j < key -> m.find? j = none) : m.first? = some (key, value) := by
  obtain ⟨l, sorted⟩ := m
  cases l with
  | nil => cases found
  | cons entry rest =>
    by_cases same : entry.1 = key
    · have here : entry.2 = value := by simpa [find?, lookup, same] using found
      simp [first?, ← same, ← here]
    have later : (key, value) ∈ rest :=
      (mem_cons.mp (lookup_mem found)).resolve_left fun eq => same (by rw [← eq])
    have smaller := (pairwise_cons.mp sorted).1 _ later
    have absent := least entry.1 smaller
    simp [find?, lookup] at absent

lemma cost_le_total (cost : V -> Nat) (found : m.find? key = some value) :
    cost value ≤ m.total cost :=
  single_le_sum (fun _ _ => Nat.zero_le _) _
    (mem_map.mpr ⟨(key, value), find?_eq_some.mp found, rfl⟩)

variable (first : m.first? = some (key, value))

include first

lemma first?_eq_some :
    ∃ rest sorted, m = ⟨(key, value) :: rest, sorted⟩ := by
  obtain ⟨_ | ⟨entry, rest⟩, sorted⟩ := m
  · cases first
  cases first
  exact ⟨rest, sorted, rfl⟩

lemma find?_first : m.find? key = some value :=
  find?_eq_some.mpr (mem_of_mem_head? first)

lemma find?_before_first {j : K} (before : j < key) :
    m.find? j = none := by
  obtain ⟨rest, sorted, rfl⟩ := first?_eq_some first
  refine lookup_before fun other member => ?_
  rcases mem_cons.mp member with rfl | later
  · exact before
  · exact before.trans ((pairwise_cons.mp sorted).1 other later)

lemma first?_insert {other : K} (behind : key < other) (new : V) :
    (m.insert other new).first? = some (key, value) := by
  apply first?_of_find?
  · rw [find?_insert, if_neg behind.ne, find?_first first]
  · intro j before
    rw [find?_insert, if_neg (before.trans behind).ne, find?_before_first first before]

lemma find?_eraseFirst (j : K) :
    m.eraseFirst.find? j = if j ≤ key then none else m.find? j := by
  obtain ⟨rest, sorted, rfl⟩ := first?_eq_some first
  have behind := (pairwise_cons.mp sorted).1
  change lookup j rest = if j ≤ key then none else lookup j ((key, value) :: rest)
  split
  next before => exact lookup_before fun other member => lt_of_le_of_lt before (behind other member)
  next after => simp [lookup, ne_of_lt (not_le.mp after)]

lemma total_eraseFirst (cost : V -> Nat) :
    m.total cost = cost value + m.eraseFirst.total cost := by
  obtain ⟨rest, sorted, rfl⟩ := first?_eq_some first
  exact sum_cons cost (key, value) rest

end

end SortedMap
