import Mathlib.Tactic

-- A tree whose edges carry keys. A node is known by the keys on the way to it.
inductive Trie (κ α : Type)
  | node (value : α) (children : List (κ × Trie κ α))

namespace Trie

open List Option

variable {κ α : Type}

def value : Trie κ α -> α
  | node value _ => value

def children : Trie κ α -> List (κ × Trie κ α)
  | node _ children => children

variable [DecidableEq κ]

def lookup (key : κ) : List (κ × Trie κ α) -> Option (Trie κ α)
  | [] => none
  | entry :: rest => if entry.1 = key then some entry.2 else lookup key rest

def find : Trie κ α -> List κ -> Option (Trie κ α)
  | tree, [] => some tree
  | tree, key :: rest => (lookup key tree.children).bind fun child => child.find rest

def valueAt (tree : Trie κ α) (place : List κ) : Option α := (tree.find place).map value

def modify (f : Trie κ α -> Trie κ α) : List κ -> Trie κ α -> Trie κ α
  | [], tree => f tree
  | key :: rest, tree =>
    node tree.value (tree.children.map fun entry =>
      if entry.1 = key then (entry.1, modify f rest entry.2) else entry)

def setValue (value : α) (tree : Trie κ α) : Trie κ α := node value tree.children

def insertChild [LT κ] [DecidableLT κ] (key : κ) (child : Trie κ α) :
    List (κ × Trie κ α) -> List (κ × Trie κ α)
  | [] => [(key, child)]
  | entry :: rest => if key < entry.1 then (key, child) :: entry :: rest else entry :: insertChild key child rest

def findOrAdd [LT κ] [DecidableLT κ] (key : κ) (fresh : α) (tree : Trie κ α) : Trie κ α :=
  if (lookup key tree.children).isSome then tree
  else node tree.value (insertChild key (node fresh []) tree.children)

def prune : List κ -> Trie κ α -> Trie κ α
  | [], tree => tree
  | [key], tree => node tree.value (tree.children.filter fun entry => entry.1 ≠ key)
  | key :: next :: rest, tree =>
    node tree.value (tree.children.map fun entry =>
      if entry.1 = key then (entry.1, prune (next :: rest) entry.2) else entry)

lemma find_append (tree : Trie κ α) (first second : List κ) :
    tree.find (first ++ second) = (tree.find first).bind fun found => found.find second := by
  induction first generalizing tree with
  | nil => rfl
  | cons key rest ih =>
    rw [cons_append, find, find]
    cases lookup key tree.children with
    | none => rfl
    | some child => exact ih child

variable {tree : Trie κ α}

lemma isSome_valueAt_append {first second : List κ} (found : (tree.valueAt (first ++ second)).isSome) :
    (tree.valueAt first).isSome := by
  rw [valueAt, find_append] at found
  rw [valueAt]
  cases known : tree.find first with
  | none => simp [known] at found
  | some child => rfl

lemma lookup_map (f : Trie κ α -> Trie κ α) (key wanted : κ) (entries : List (κ × Trie κ α)) :
    lookup wanted (entries.map fun entry => if entry.1 = key then (entry.1, f entry.2) else entry) =
      if wanted = key then (lookup wanted entries).map f else lookup wanted entries := by
  induction entries with
  | nil => simp [lookup]
  | cons entry rest ih =>
    rw [map_cons, lookup, lookup, ih]
    by_cases here : entry.1 = key <;> by_cases same : entry.1 = wanted <;> by_cases both : wanted = key <;>
      simp_all

lemma lookup_insertChild [LT κ] [DecidableLT κ] {key : κ} {entries : List (κ × Trie κ α)}
    (absent : lookup key entries = none) (child : Trie κ α) (wanted : κ) :
    lookup wanted (insertChild key child entries) =
      if wanted = key then some child else lookup wanted entries := by
  induction entries with
  | nil =>
    simp only [insertChild, lookup, eq_comm (a := wanted)]
  | cons entry rest ih =>
    rw [lookup] at absent
    split at absent
    · cases absent
    next other =>
      rw [insertChild]
      split
      · simp only [lookup, eq_comm (a := wanted)]
      · rw [lookup, lookup, ih absent]
        by_cases same : entry.1 = wanted <;> by_cases both : wanted = key <;> simp_all

lemma lookup_filter (key wanted : κ) (entries : List (κ × Trie κ α)) :
    lookup wanted (entries.filter fun entry => entry.1 ≠ key) =
      if wanted = key then none else lookup wanted entries := by
  induction entries with
  | nil => simp [lookup]
  | cons entry rest ih =>
    rw [filter_cons]
    by_cases here : entry.1 = key <;> by_cases same : entry.1 = wanted <;> by_cases both : wanted = key <;>
      simp_all [lookup]

lemma valueAt_cons (tree : Trie κ α) (key : κ) (rest : List κ) :
    tree.valueAt (key :: rest) = (lookup key tree.children).bind fun child => child.valueAt rest := by
  rw [valueAt, find]
  cases lookup key tree.children <;> rfl

lemma find_modify (f : Trie κ α -> Trie κ α) (place rest : List κ) (tree : Trie κ α) :
    (modify f place tree).find (place ++ rest) =
      (tree.find place).bind fun found => (f found).find rest := by
  induction place generalizing tree with
  | nil => rfl
  | cons key place ih =>
    rw [cons_append, modify, find, find, children, lookup_map, if_pos rfl]
    cases lookup key tree.children with
    | none => rfl
    | some child => exact ih child

variable {place : List κ}

lemma valueAt_modify_other (f : Trie κ α -> Trie κ α) {other : List κ} (away : ¬place <+: other) (tree : Trie κ α) :
    (modify f place tree).valueAt other = tree.valueAt other := by
  induction place generalizing tree other with
  | nil => exact absurd nil_prefix away
  | cons key place ih =>
    cases other with
    | nil => rfl
    | cons wanted other =>
      rw [valueAt_cons, valueAt_cons, modify, children, lookup_map]
      split
      next same =>
        rw [same, cons_prefix_cons] at away
        push Not at away
        cases lookup wanted tree.children with
        | none => rfl
        | some child => exact ih (away rfl) child
      next => rfl

lemma valueAt_setValue (present : (tree.valueAt place).isSome) (value : α) (other : List κ) :
    (modify (setValue value) place tree).valueAt other =
      if other = place then some value else tree.valueAt other := by
  by_cases under : place <+: other
  · obtain ⟨rest, rfl⟩ := under
    rw [valueAt, find_modify, valueAt, find_append]
    rw [valueAt] at present
    cases found : tree.find place with
    | none => simp [found] at present
    | some child =>
      cases rest with
      | nil => simp [find, setValue, Trie.value]
      | cons key rest => simp [find, setValue, children]
  · rw [valueAt_modify_other _ under, if_neg]
    rintro rfl
    exact under prefix_rfl

lemma valueAt_findOrAdd [LT κ] [DecidableLT κ] (present : (tree.valueAt place).isSome) (key : κ) (fresh : α)
    (other : List κ) :
    (modify (findOrAdd key fresh) place tree).valueAt other =
      if other = place ++ [key] then some ((tree.valueAt other).getD fresh) else tree.valueAt other := by
  by_cases under : place <+: other
  · obtain ⟨rest, rfl⟩ := under
    rw [valueAt, find_modify, valueAt, find_append]
    rw [valueAt] at present
    cases found : tree.find place with
    | none => simp [found] at present
    | some child =>
      simp only [bind_some, append_cancel_left_eq]
      rw [findOrAdd]
      cases rest with
      | nil =>
        rw [if_neg (cons_ne_nil key []).symm]
        split <;> rfl
      | cons wanted rest =>
        split
        next there =>
          split
          next same =>
            cases same
            obtain ⟨next, known⟩ := isSome_iff_exists.mp there
            simp [find, known]
          next => rfl
        next absent =>
          rw [not_isSome_iff_eq_none] at absent
          rw [find, find, children, lookup_insertChild absent]
          by_cases same : wanted = key
          · subst same
            rw [if_pos rfl, absent]
            cases rest with
            | nil => simp [find, Trie.value]
            | cons next rest => simp [find, children, lookup]
          · simp [same]
  · rw [valueAt_modify_other _ under, if_neg]
    rintro rfl
    exact under (prefix_append place [key])

lemma valueAt_prune_under {gone : List κ} (below : gone ≠ []) (tree : Trie κ α) (rest : List κ) :
    (prune gone tree).valueAt (gone ++ rest) = none := by
  induction gone generalizing tree with
  | nil => contradiction
  | cons key gone ih =>
    rw [cons_append, valueAt_cons]
    cases gone with
    | nil => rw [prune, children, lookup_filter, if_pos rfl, bind_none]
    | cons next gone =>
      rw [prune, children, lookup_map, if_pos rfl]
      cases lookup key tree.children with
      | none => rfl
      | some child => exact ih (cons_ne_nil next gone) child

lemma valueAt_prune_other {gone other : List κ} (away : ¬gone <+: other) (tree : Trie κ α) :
    (prune gone tree).valueAt other = tree.valueAt other := by
  induction gone generalizing tree other with
  | nil => exact absurd nil_prefix away
  | cons key gone ih =>
    cases other with
    | nil => cases gone <;> rfl
    | cons wanted other =>
      rw [cons_prefix_cons, not_and] at away
      rw [valueAt_cons, valueAt_cons]
      cases gone with
      | nil =>
        have apart : wanted ≠ key := fun same => away same.symm nil_prefix
        rw [prune, children, lookup_filter, if_neg apart]
      | cons next gone =>
        rw [prune, children, lookup_map]
        split
        next same =>
          cases lookup wanted tree.children with
          | none => rfl
          | some child => exact ih (away same.symm) child
        next => rfl

end Trie
