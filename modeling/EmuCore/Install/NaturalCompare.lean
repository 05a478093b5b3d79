import Mathlib.Tactic

namespace EmuCore.Install

open List Int

-- Int.compareTo and Char.compareTo
def compareTo {α : Type} [LinearOrder α] (x y : α) : Int := if x < y then -1 else if x = y then 0 else 1

-- A Char is a UTF-16 code unit.
abbrev Char16 := Fin 65536

abbrev Text := List Char16

def stringCompare : Text -> Text -> Int
  | a :: as, b :: bs => if a = b then stringCompare as bs else (a.val : Int) - b.val
  | as, bs => as.length - bs.length

/-- The platform's tables. A digit has no lower case of its own, and is the lower case of nothing else. -/
structure Tables where
  isDigit : Char16 -> Bool
  lowercaseChar : Char16 -> Char16
  digit_lower : ∀ c, isDigit c = true -> lowercaseChar c = c
  lower_digit : ∀ c, isDigit (lowercaseChar c) = true -> isDigit c = true

namespace Tables

variable (t : Tables)

def number (text : Text) : Text := (text.takeWhile t.isDigit).dropWhile fun c => c = 48

-- The cursors are held as what follows them. The first one moves in every round.
def compareFrom : Nat -> Text -> Text -> Int
  | rounds + 1, a :: as, b :: bs =>
    if t.isDigit a && t.isDigit b then
      let left := t.number (a :: as)
      let right := t.number (b :: bs)
      if left.length ≠ right.length then left.length - right.length
      else
        let order := stringCompare left right
        if order ≠ 0 then order
        else compareFrom rounds ((a :: as).dropWhile t.isDigit) ((b :: bs).dropWhile t.isDigit)
    else
      let order := compareTo (t.lowercaseChar a) (t.lowercaseChar b)
      if order ≠ 0 then order else compareFrom rounds as bs
  | _, as, bs => as.length - bs.length

def naturalCompare (first second : Text) : Int := t.compareFrom first.length first second

end Tables

def texts (letters : Set Char16) : Set Text := {text | ∀ c ∈ text, c ∈ letters}

structure Comparator (compare : Text -> Text -> Int) (texts : Set Text) : Prop where
  opposite : ∀ a ∈ texts, ∀ b ∈ texts, (compare a b).sign = -(compare b a).sign
  transitive : ∀ a ∈ texts, ∀ b ∈ texts, ∀ c ∈ texts, compare a b ≤ 0 -> compare b c ≤ 0 -> compare a c ≤ 0
  equal : ∀ a ∈ texts, ∀ b ∈ texts, ∀ c ∈ texts, compare a b = 0 -> (compare a c).sign = (compare b c).sign

section Order

variable {α β : Type} [LinearOrder α] [LinearOrder β]

lemma compareTo_of_lt {x y : α} (less : x < y) : compareTo x y = -1 := if_pos less

lemma compareTo_self (x : α) : compareTo x x = 0 := by simp [compareTo]

lemma compareTo_of_gt {x y : α} (more : y < x) : compareTo x y = 1 := by
  rw [compareTo, if_neg more.not_gt, if_neg more.ne']

lemma compareTo_swap (x y : α) : compareTo x y = -compareTo y x := by
  rcases lt_trichotomy x y with less | rfl | more
  · rw [compareTo_of_lt less, compareTo_of_gt less]
  · rw [compareTo_self, neg_zero]
  · rw [compareTo_of_gt more, compareTo_of_lt more, neg_neg]

lemma compareTo_nonpos {x y : α} : compareTo x y ≤ 0 ↔ x ≤ y := by
  rcases lt_trichotomy x y with less | rfl | more
  · simp [compareTo_of_lt less, less.le]
  · simp [compareTo_self]
  · simp [compareTo_of_gt more, more.not_ge]

lemma eq_of_compareTo {x y : α} (zero : compareTo x y = 0) : x = y := by
  refine le_antisymm (compareTo_nonpos.mp zero.le) (compareTo_nonpos.mp ?_)
  rw [compareTo_swap, zero, neg_zero]

lemma sign_first {x y : α} {n m k : Int} (first : n.sign = compareTo x y) (second : x = y -> m.sign = k) :
    (if n ≠ 0 then n else m).sign = if x = y then k else compareTo x y := by
  by_cases same : x = y
  · subst same
    rw [compareTo_self, sign_eq_zero_iff_zero] at first
    rw [if_neg (not_not.mpr first), if_pos rfl, second rfl]
  · have differs : n ≠ 0 := by
      rintro rfl
      exact same (eq_of_compareTo first.symm)
    rw [if_pos differs, if_neg same, first]

lemma compareTo_congr {x y : α} {z w : β} (less : x < y ↔ z < w) (same : x = y ↔ z = w) :
    compareTo x y = compareTo z w := by
  simp only [compareTo, less, same]

lemma compareTo_cons (x y : α) (xs ys : List α) :
    compareTo (x :: xs) (y :: ys) = if x = y then compareTo xs ys else compareTo x y := by
  by_cases same : x = y
  · rw [if_pos same]
    exact compareTo_congr (by simp [same]) (by simp [same])
  · rw [if_neg same]
    exact compareTo_congr (by simp [cons_lt_cons_iff, same]) (by simp [same])

lemma compareTo_lex (x y : α) (z w : β) :
    compareTo (toLex (x, z)) (toLex (y, w)) = if x = y then compareTo z w else compareTo x y := by
  by_cases same : x = y
  · rw [if_pos same]
    exact compareTo_congr (by simp [Prod.Lex.toLex_lt_toLex, same]) (by simp [same])
  · rw [if_neg same]
    exact compareTo_congr (by simp [Prod.Lex.toLex_lt_toLex, same]) (by simp [same])

omit [LinearOrder α] in
lemma sign_lengths {xs ys : List α} {us vs : List β} (ends : xs = [] ∨ ys = []) (left : us = [] ↔ xs = [])
    (right : vs = [] ↔ ys = []) : ((xs.length : Int) - ys.length).sign = compareTo us vs := by
  cases xs with
  | nil =>
    obtain rfl := left.mpr rfl
    cases ys with
    | nil =>
      obtain rfl := right.mpr rfl
      exact (compareTo_self _).symm
    | cons y ys =>
      obtain ⟨v, rest, rfl⟩ := exists_cons_of_ne_nil fun empty => cons_ne_nil y ys (right.mp empty)
      rw [compareTo_of_lt (nil_lt_cons v rest), sign_eq_neg_one_of_neg (by simp only [length_nil, length_cons]; omega)]
  | cons x xs =>
    obtain rfl := ends.resolve_left (cons_ne_nil x xs)
    obtain rfl := right.mpr rfl
    obtain ⟨u, rest, rfl⟩ := exists_cons_of_ne_nil fun empty => cons_ne_nil x xs (left.mp empty)
    rw [compareTo_of_gt (nil_lt_cons u rest), sign_eq_one_of_pos (by simp only [length_nil, length_cons]; omega)]

end Order

lemma sign_sub (a b : Nat) : ((a : Int) - b).sign = compareTo a b := by
  rcases lt_trichotomy a b with less | rfl | more
  · rw [compareTo_of_lt less, sign_eq_neg_one_of_neg (by omega)]
  · rw [compareTo_self, sub_self, sign_zero]
  · rw [compareTo_of_gt more, sign_eq_one_of_pos (by omega)]

lemma sign_compareTo {α : Type} [LinearOrder α] (x y : α) : (compareTo x y).sign = compareTo x y := by
  rw [compareTo]
  split_ifs <;> rfl

lemma stringCompare_sign (as bs : Text) : (stringCompare as bs).sign = compareTo as bs := by
  fun_induction stringCompare as bs with
  | case1 a as bs ih => rw [ih, compareTo_cons, if_pos rfl]
  | case2 a as b bs other =>
    rw [sign_sub, compareTo_cons, if_neg other]
    exact compareTo_congr Iff.rfl Fin.ext_iff.symm
  | case3 as bs ends =>
    refine sign_lengths ?_ Iff.rfl Iff.rfl
    cases as with
    | nil => exact .inl rfl
    | cons a as =>
      cases bs with
      | nil => exact .inr rfl
      | cons b bs => exact (ends a as b bs rfl rfl).elim

namespace Tables

variable (t : Tables) (letters : Set Char16)

/-- No other character is between two digits. -/
def Separate : Prop :=
  ∀ c ∈ letters, t.isDigit c = false -> ∀ d ∈ letters, t.isDigit d = true -> ∀ e ∈ letters, t.isDigit e = true ->
    ¬(d < t.lowercaseChar c ∧ t.lowercaseChar c < e)

abbrev Key := Nat ×ₗ Nat ×ₗ Text

open Classical in
noncomputable def charKey (c : Char16) : Key :=
  toLex (if ∃ d ∈ letters, t.isDigit d = true ∧ d < t.lowercaseChar c then 2 else 0, toLex ((t.lowercaseChar c).val, []))

def runKey (text : Text) : Key := toLex (1, toLex ((t.number text).length, t.number text))

noncomputable def keys : Text -> List Key
  | [] => []
  | c :: rest =>
    if t.isDigit c then t.runKey (c :: rest) :: keys (rest.dropWhile t.isDigit)
    else t.charKey letters c :: keys rest
termination_by text => text.length
decreasing_by
  · exact Nat.lt_succ_of_le (dropWhile_suffix _).length_le
  · exact Nat.lt_succ_self _

variable {t letters}

lemma runKey_sign (as bs : Text) :
    (if (t.number as).length ≠ (t.number bs).length then ((t.number as).length : Int) - (t.number bs).length
      else stringCompare (t.number as) (t.number bs)).sign = compareTo (t.runKey as) (t.runKey bs) := by
  rw [runKey, runKey, compareTo_lex, if_pos rfl, compareTo_lex]
  by_cases same : (t.number as).length = (t.number bs).length
  · rw [if_neg (not_not.mpr same), if_pos same, stringCompare_sign]
  · rw [if_pos same, if_neg same, sign_sub]

lemma charKey_lt {a b : Char16} (less : t.lowercaseChar a < t.lowercaseChar b) :
    t.charKey letters a < t.charKey letters b := by
  rw [charKey, charKey, Prod.Lex.toLex_lt_toLex, Prod.Lex.toLex_lt_toLex]
  by_cases high : ∃ d ∈ letters, t.isDigit d = true ∧ d < t.lowercaseChar a
  · obtain ⟨d, member, digit, below⟩ := high
    rw [if_pos ⟨d, member, digit, below⟩, if_pos ⟨d, member, digit, below.trans less⟩]
    exact .inr ⟨rfl, .inl less⟩
  · rw [if_neg high]
    split
    · exact .inl two_pos
    · exact .inr ⟨rfl, .inl less⟩

lemma charKey_compare (a b : Char16) :
    compareTo (t.lowercaseChar a) (t.lowercaseChar b) = compareTo (t.charKey letters a) (t.charKey letters b) := by
  rcases lt_trichotomy (t.lowercaseChar a) (t.lowercaseChar b) with less | same | more
  · rw [compareTo_of_lt less, compareTo_of_lt (charKey_lt less)]
  · rw [charKey, charKey, same, compareTo_self, compareTo_self]
  · rw [compareTo_of_gt more, compareTo_of_gt (charKey_lt more)]

lemma keys_eq_nil (text : Text) : t.keys letters text = [] ↔ text = [] := by
  cases text with
  | nil => simp [keys]
  | cons c rest =>
    rw [keys]
    split <;> simp

lemma runKey_ne_charKey (text : Text) (c : Char16) : t.runKey text ≠ t.charKey letters c := by
  intro same
  have first := congrArg (fun key => (ofLex key).1) same
  simp only [runKey, charKey, ofLex_toLex] at first
  split at first <;> omega

lemma compareFrom_digits {rounds : Nat} {a b : Char16} {as bs : Text} (first : t.isDigit a = true)
    (second : t.isDigit b = true) :
    t.compareFrom (rounds + 1) (a :: as) (b :: bs) =
      let order := if (t.number (a :: as)).length ≠ (t.number (b :: bs)).length then
        ((t.number (a :: as)).length : Int) - (t.number (b :: bs)).length
      else stringCompare (t.number (a :: as)) (t.number (b :: bs))
      if order ≠ 0 then order
      else t.compareFrom rounds (as.dropWhile t.isDigit) (bs.dropWhile t.isDigit) := by
  rw [compareFrom, if_pos (by rw [first, second]; rfl), dropWhile_cons_of_pos first, dropWhile_cons_of_pos second]
  by_cases same : (t.number (a :: as)).length = (t.number (b :: bs)).length
  · simp only [same, ne_eq, not_true_eq_false, if_false]
  · simp only [ne_eq, same, not_false_eq_true, if_true]
    rw [if_pos (by omega)]

lemma compareFrom_other {rounds : Nat} {a b : Char16} {as bs : Text} (other : (t.isDigit a && t.isDigit b) = false) :
    t.compareFrom (rounds + 1) (a :: as) (b :: bs) =
      if compareTo (t.lowercaseChar a) (t.lowercaseChar b) ≠ 0 then compareTo (t.lowercaseChar a) (t.lowercaseChar b)
      else t.compareFrom rounds as bs := by
  rw [compareFrom, other]
  rfl

variable (separate : t.Separate letters)

include separate

lemma run_char_compare {a b : Char16} (text : Text) (digit : t.isDigit a = true) (other : t.isDigit b = false)
    (known : a ∈ letters) (known_other : b ∈ letters) :
    compareTo a (t.lowercaseChar b) = compareTo (t.runKey text) (t.charKey letters b) := by
  rcases lt_trichotomy a (t.lowercaseChar b) with less | same | more
  · have high : t.runKey text < t.charKey letters b := by
      rw [runKey, charKey, if_pos ⟨a, known, digit, less⟩, Prod.Lex.toLex_lt_toLex]
      exact .inl one_lt_two
    rw [compareTo_of_lt less, compareTo_of_lt high]
  · rw [t.lower_digit b (same ▸ digit)] at other
    cases other
  have low : t.charKey letters b < t.runKey text := by
    rw [runKey, charKey, if_neg fun ⟨d, member, isDigit, below⟩ =>
      separate b known_other other d member isDigit a known digit ⟨below, more⟩, Prod.Lex.toLex_lt_toLex]
    exact .inl one_pos
  rw [compareTo_of_gt more, compareTo_of_gt low]

lemma compareFrom_sign {rounds : Nat} {as bs : Text} (enough : as.length ≤ rounds)
    (left : as ∈ texts letters) (right : bs ∈ texts letters) :
    (t.compareFrom rounds as bs).sign = compareTo (t.keys letters as) (t.keys letters bs) := by
  induction rounds generalizing as bs with
  | zero =>
    obtain rfl := length_eq_zero_iff.mp (Nat.le_zero.mp enough)
    exact sign_lengths (.inl rfl) (keys_eq_nil _) (keys_eq_nil _)
  | succ rounds ih =>
    rcases as with _ | ⟨a, as⟩
    · exact sign_lengths (.inl rfl) (keys_eq_nil _) (keys_eq_nil _)
    rcases bs with _ | ⟨b, bs⟩
    · exact sign_lengths (.inr rfl) (keys_eq_nil _) (keys_eq_nil _)
    have known_a := left a mem_cons_self
    have known_b := right b mem_cons_self
    have left : as ∈ texts letters := fun c member => left c (mem_cons_of_mem a member)
    have right : bs ∈ texts letters := fun c member => right c (mem_cons_of_mem b member)
    have enough : as.length ≤ rounds := Nat.le_of_succ_le_succ enough
    rw [keys, keys]
    cases first : t.isDigit a with
    | true =>
      cases second : t.isDigit b with
      | true =>
        rw [if_pos rfl, if_pos rfl, compareFrom_digits first second, compareTo_cons]
        exact sign_first (runKey_sign _ _) fun _ => ih ((dropWhile_suffix _).length_le.trans enough)
          (fun c member => left c ((dropWhile_suffix _).subset member))
          fun c member => right c ((dropWhile_suffix _).subset member)
      | false =>
        rw [if_pos rfl, if_neg Bool.false_ne_true, compareFrom_other (by rw [first, second]; rfl), compareTo_cons,
          t.digit_lower a first]
        refine sign_first ?_ fun same => absurd same (runKey_ne_charKey _ _)
        rw [sign_compareTo, run_char_compare separate _ first second known_a known_b]
    | false =>
      cases second : t.isDigit b with
      | true =>
        rw [if_neg Bool.false_ne_true, if_pos rfl, compareFrom_other (by rw [first]; rfl), compareTo_cons,
          t.digit_lower b second]
        refine sign_first ?_ fun same => absurd same.symm (runKey_ne_charKey _ _)
        rw [sign_compareTo, compareTo_swap, run_char_compare separate _ second first known_b known_a, ← compareTo_swap]
      | false =>
        rw [if_neg Bool.false_ne_true, if_neg Bool.false_ne_true, compareFrom_other (by rw [first]; rfl), compareTo_cons]
        exact sign_first (by rw [sign_compareTo, charKey_compare]) fun _ => ih enough left right

lemma comparator : Comparator t.naturalCompare (texts letters) := by
  have sign : ∀ a ∈ texts letters, ∀ b ∈ texts letters,
      (t.naturalCompare a b).sign = compareTo (t.keys letters a) (t.keys letters b) := fun a left b right =>
    compareFrom_sign separate le_rfl left right
  refine ⟨fun a left b right => ?_, fun a left b middle c right first second => ?_, fun a left b middle c right same => ?_⟩
  · rw [sign a left b right, sign b right a left, compareTo_swap]
  · rw [← sign_nonpos_iff, sign a left b middle, compareTo_nonpos] at first
    rw [← sign_nonpos_iff, sign b middle c right, compareTo_nonpos] at second
    rw [← sign_nonpos_iff, sign a left c right, compareTo_nonpos]
    exact first.trans second
  · rw [← sign_eq_zero_iff_zero, sign a left b middle] at same
    rw [sign a left c right, sign b middle c right, eq_of_compareTo same]

omit separate

lemma naturalCompare_other {a b : Char16} {as bs : Text} (other : (t.isDigit a && t.isDigit b) = false)
    (differ : t.lowercaseChar a ≠ t.lowercaseChar b) :
    t.naturalCompare (a :: as) (b :: bs) = compareTo (t.lowercaseChar a) (t.lowercaseChar b) := by
  rw [naturalCompare, length_cons, compareFrom_other other, if_pos fun same => differ (eq_of_compareTo same)]

theorem natural_compare_iff (t : Tables) (letters : Set Char16) :
    Comparator t.naturalCompare (texts letters) ↔ t.Separate letters := by
  refine ⟨fun valid c known other d known_d digit_d e known_e digit_e ⟨below, above⟩ => ?_, comparator⟩
  have text : ∀ {x y : Char16}, x ∈ letters -> y ∈ letters -> [x, y] ∈ texts letters := fun first second z member => by
    rcases mem_pair.mp member with rfl | rfl
    · exact first
    · exact second
  have single : ∀ {x : Char16}, x ∈ letters -> [x] ∈ texts letters := fun first z member =>
    mem_singleton.mp member ▸ first
  have less (rest : Text) : t.naturalCompare (d :: rest) [c] = -1 := by
    rw [naturalCompare_other (by rw [other, Bool.and_false]) (by rw [t.digit_lower d digit_d]; exact below.ne),
      t.digit_lower d digit_d, compareTo_of_lt below]
  by_cases zero : d = 48
  · -- "0e" is the same number as "e"
    subst zero
    have more : t.naturalCompare [e] [c] = 1 := by
      rw [naturalCompare_other (by rw [other, Bool.and_false]) (by rw [t.digit_lower e digit_e]; exact above.ne'),
        t.digit_lower e digit_e, compareTo_of_gt above]
    have same : t.naturalCompare [48, e] [e] = 0 := by
      have some : e ≠ 48 := (below.trans above).ne'
      rw [naturalCompare, length_cons, compareFrom_digits digit_d digit_e]
      simp [number, digit_d, digit_e, some, stringCompare, compareFrom]
    have clash := valid.equal _ (text known_d known_e) _ (single known_e) _ (single known) same
    rw [less, more] at clash
    cases clash
  · -- "dd" is a larger number than "e"
    have above : t.naturalCompare [c] [e] = -1 := by
      rw [naturalCompare_other (by rw [other, Bool.false_and]) (by rw [t.digit_lower e digit_e]; exact above.ne),
        t.digit_lower e digit_e, compareTo_of_lt above]
    have more : 0 < t.naturalCompare [d, d] [e] := by
      rw [naturalCompare, length_cons, compareFrom_digits digit_d digit_e]
      obtain rfl | some := eq_or_ne e 48
      · simp [number, digit_d, digit_e, zero]
      · simp [number, digit_d, digit_e, zero, some]
    exact more.not_ge (valid.transitive _ (text known_d known_d) _ (single known) _ (single known_e)
      (less _ ▸ by decide) (above ▸ by decide))

end Tables

-- The digits of two blocks, without upper case letters.
def arabicTables : Tables where
  isDigit c := (48 ≤ c && c ≤ 57) || (0x660 ≤ c && c ≤ 0x669)
  lowercaseChar := id
  digit_lower _ _ := rfl
  lower_digit _ digit := digit

-- "0٣" and "٣" are the same number, but "x" comes between them.
theorem natural_compare_digits : arabicTables.naturalCompare [48, 0x663] [0x663] = 0 ∧
    arabicTables.naturalCompare [48, 0x663] [120] = -1 ∧ arabicTables.naturalCompare [120] [0x663] = -1 := by
  decide

end EmuCore.Install
