import Mathlib.Tactic

namespace LinkedList

open List Function

variable {T : Type}

/-- The list that is found by following `next` from `first`. -/
def Chain (next : T -> Option T) : Option T -> List T -> Prop
  | first, [] => first = none
  | first, t :: rest => first = some t ∧ Chain next (next t) rest

def walk (next : T -> Option T) : Nat -> Option T -> Option (List T)
  | _, none => some []
  | 0, some _ => none
  | fuel + 1, some t => (walk next fuel (next t)).map fun rest => t :: rest

def parentOf [DecidableEq T] : List T -> T -> Option T
  | p :: t :: rest, x => if t = x then some p else parentOf (t :: rest) x
  | _, _ => none

def relink [DecidableEq T] (next : T -> Option T) (list : List T) (x : T) (after : Option T) :
    T -> Option T :=
  match parentOf list x with
  | some p => update next p after
  | none => next

variable {next : T -> Option T} {first : Option T} {list : List T}

lemma Chain.eq_nil (chain : Chain next none list) : list = [] := by
  cases list with
  | nil => rfl
  | cons t rest => cases chain.1

lemma Chain.of_some {t : T} (chain : Chain next (some t) list) :
    ∃ rest, list = t :: rest ∧ Chain next (next t) rest := by
  cases list with
  | nil => cases chain
  | cons u rest =>
    cases chain.1
    exact ⟨rest, rfl, chain.2⟩

lemma Chain.walk_eq (chain : Chain next first list) {fuel : Nat} (enough : list.length ≤ fuel) :
    walk next fuel first = some list := by
  induction list generalizing first fuel with
  | nil =>
    obtain rfl : first = none := chain
    cases fuel <;> rfl
  | cons t rest ih =>
    obtain ⟨rfl, chain⟩ := chain
    cases fuel with
    | zero => simp at enough
    | succ fuel =>
      have found := ih chain (Nat.le_of_succ_le_succ enough)
      simp [walk, found]

lemma Chain.unique {other : List T} (chain : Chain next first list)
    (second : Chain next first other) : list = other := by
  induction list generalizing first other with
  | nil =>
    obtain rfl : first = none := chain
    cases other with
    | nil => rfl
    | cons t rest => cases second.1
  | cons t rest ih =>
    obtain ⟨rfl, chain⟩ := chain
    cases other with
    | nil => cases second
    | cons u others =>
      obtain ⟨same, second⟩ := second
      cases same
      rw [ih chain second]

variable {x : T}

lemma Chain.last (chain : Chain next first list) (last : list.getLast? = some x) :
    next x = none := by
  induction list generalizing first with
  | nil => cases last
  | cons t rest ih =>
    cases rest with
    | nil =>
      obtain rfl : t = x := by simpa using last
      exact chain.2
    | cons u rest => exact ih chain.2 (by simpa using last)

lemma Chain.head (chain : Chain next first list) : first = list.head? := by
  cases list with
  | nil => exact chain
  | cons t rest => exact chain.1

lemma Chain.congr {other : T -> Option T} (chain : Chain next first list) (same : ∀ t ∈ list, other t = next t) :
    Chain other first list := by
  induction list generalizing first with
  | nil => exact chain
  | cons t rest ih =>
    obtain ⟨rfl, chain⟩ := chain
    refine ⟨rfl, ?_⟩
    rw [same t mem_cons_self]
    exact ih chain fun u member => same u (mem_cons_of_mem t member)

variable [DecidableEq T]

lemma Chain.update {value : Option T} (chain : Chain next first list) (outside : x ∉ list) :
    Chain (update next x value) first list := by
  induction list generalizing first with
  | nil => exact chain
  | cons t rest ih =>
    obtain ⟨rfl, chain⟩ := chain
    have other : t ≠ x := fun same => outside (same ▸ mem_cons_self)
    refine ⟨rfl, ?_⟩
    rw [update_of_ne other]
    exact ih chain fun member => outside (mem_cons_of_mem t member)

lemma parentOf_split {p : T} (found : parentOf list x = some p) :
    ∃ before after, list = before ++ p :: x :: after := by
  fun_induction parentOf list x with
  | case1 q rest x =>
    cases found
    exact ⟨[], rest, rfl⟩
  | case2 q t rest x _ ih =>
    obtain ⟨before, after, same⟩ := ih found
    exact ⟨q :: before, after, by rw [same, cons_append]⟩
  | case3 => cases found

lemma parentOf_isSome {t : T} {rest : List T} (member : x ∈ rest) :
    ∃ p, parentOf (t :: rest) x = some p := by
  induction rest generalizing t with
  | nil => cases member
  | cons u rest ih =>
    by_cases here : u = x
    · exact ⟨t, by simp [parentOf, here]⟩
    · obtain ⟨p, found⟩ := ih (t := u) ((mem_cons.mp member).resolve_left fun same => here same.symm)
      exact ⟨p, by simp [parentOf, here, found]⟩

lemma Chain.skip {before after : List T} {p : T} (chain : Chain next first (before ++ p :: x :: after))
    (nodup : (before ++ p :: x :: after).Nodup) :
    Chain (Function.update next p (next x)) first (before ++ p :: after) := by
  induction before generalizing first with
  | nil =>
    obtain ⟨rfl, link, chain⟩ := chain
    have outside : p ∉ after := fun member =>
      (nodup_cons.mp nodup).1 (mem_cons_of_mem x member)
    exact ⟨rfl, by rw [update_self]; exact chain.update outside⟩
  | cons t before ih =>
    obtain ⟨rfl, chain⟩ := chain
    obtain ⟨outside, nodup⟩ := nodup_cons.mp nodup
    have other : t ≠ p := fun same => outside (by simp [same])
    refine ⟨rfl, ?_⟩
    rw [update_of_ne other]
    exact ih chain nodup

lemma Chain.unlink {front rest : List T} {t : T} (chain : Chain next first (front ++ t :: rest))
    (nodup : (front ++ t :: rest).Nodup) (member : x ∈ rest) :
    Chain (relink next (t :: rest) x (next x)) first ((front ++ t :: rest).erase x) := by
  obtain ⟨p, found⟩ := parentOf_isSome (t := t) member
  obtain ⟨before, after, split⟩ := parentOf_split found
  have whole : front ++ t :: rest = (front ++ before) ++ p :: x :: after := by
    rw [split, append_assoc]
  rw [whole] at chain nodup ⊢
  have erased : ((front ++ before) ++ p :: x :: after).erase x = (front ++ before) ++ p :: after := by
    have apart := nodup_append.mp nodup
    have notBefore : x ∉ front ++ before := fun inside =>
      apart.2.2 x inside x (by simp) rfl
    have other : p ≠ x := fun same => (nodup_cons.mp apart.2.1).1 (by simp [same])
    rw [erase_append_right _ notBefore, erase_cons_tail (by simpa using other),
      erase_cons_head]
  rw [erased]
  unfold relink
  rw [found]
  exact chain.skip nodup

lemma relink_of_notMem {u : T} {after : Option T} (outside : u ∉ list) :
    relink next list x after u = next u := by
  cases found : parentOf list x with
  | none => simp only [relink, found]
  | some p =>
    obtain ⟨before, tail, split⟩ := parentOf_split found
    have other : u ≠ p := fun same => outside (by rw [split, same]; simp)
    simp only [relink, found, update_of_ne other]

end LinkedList
