import EmuCore.Vfs.PathAgreement

namespace EmuCore.Vfs

open List

/- Whether one of the components of a path is "." or "..", read from left to right. -/

inductive Seen
  | start
  | one
  | two
  | other
deriving DecidableEq

def Seen.isDots : Seen -> Bool
  | .one => true
  | .two => true
  | _ => false

def Seen.afterDot : Seen -> Seen
  | .start => .one
  | .one => .two
  | .two => .other
  | .other => .other

def Seen.next (seen : Seen) (b : UInt8) : Seen := if b = dot then seen.afterDot else .other

def hasDots : Seen -> Bytes -> Bool
  | seen, [] => seen.isDots
  | seen, b :: rest => if b = slash then seen.isDots || hasDots .start rest else hasDots (seen.next b) rest

lemma hasDots_append_slash (seen : Seen) (first second : Bytes) :
    hasDots seen (first ++ slash :: second) = (hasDots seen first || hasDots .start second) := by
  induction first generalizing seen with
  | nil => simp [hasDots]
  | cons b first ih =>
    rw [cons_append, hasDots, hasDots]
    split
    · rw [ih, Bool.or_assoc]
    · rw [ih]

lemma hasDots_dropWhile (text : Bytes) : hasDots .start (text.dropWhile isSlash) = hasDots .start text := by
  induction text with
  | nil => rfl
  | cons b text ih =>
    rw [dropWhile_cons]
    split
    next isIt =>
      obtain rfl : b = slash := by simpa [isSlash] using isIt
      exact ih
    next => rfl

lemma hasDots_word {word : Bytes} (dots : word = current ∨ word = parent) : hasDots .start word = true := by
  rcases dots with rfl | rfl <;> rfl

lemma hasDots_other {word : Bytes} (plain : slash ∉ word) : hasDots .other word = false := by
  induction word with
  | nil => rfl
  | cons b word ih =>
    rw [mem_cons, not_or] at plain
    have stays : Seen.other.next b = .other := by
      rw [Seen.next]
      split <;> rfl
    rw [hasDots, if_neg (Ne.symm plain.1), stays]
    exact ih plain.2

lemma hasDots_plain {word : Bytes} (plain : slash ∉ word) (one : word ≠ current) (two : word ≠ parent) :
    hasDots .start word = false := by
  cases word with
  | nil => rfl
  | cons b rest =>
    rw [mem_cons, not_or] at plain
    rw [hasDots, if_neg (Ne.symm plain.1), Seen.next]
    split
    next first =>
      cases rest with
      | nil => exact absurd (by rw [first]; rfl) one
      | cons c rest =>
        rw [mem_cons, not_or] at plain
        rw [hasDots, if_neg (Ne.symm plain.2.1), Seen.next]
        split
        next second =>
          cases rest with
          | nil => exact absurd (by rw [first, second]; rfl) two
          | cons d rest =>
            rw [mem_cons, not_or] at plain
            have third : (Seen.start.afterDot.afterDot.next d) = .other := by
              rw [Seen.next]
              split <;> rfl
            rw [hasDots, if_neg (Ne.symm plain.2.2.1), third]
            exact hasDots_other plain.2.2.2
        next => exact hasDots_other plain.2.2
    next => exact hasDots_other plain.2

variable {name : Bytes}

lemma mem_names_of_hasDots {text : Bytes} (clean : hasDots .start text = false) (member : name ∈ names text) :
    name ≠ current ∧ name ≠ parent := by
  have general : ∀ fuel text, hasDots .start text = false ->
      ∀ fragment ∈ fragmentsFuel fuel text, ¬(fragment.1 = current ∨ fragment.1 = parent) := by
    intro fuel
    induction fuel with
    | zero => exact fun _ _ _ member => by cases member
    | succ fuel ih =>
      intro text clean fragment member
      rw [fragmentsFuel] at member
      rw [← hasDots_dropWhile] at clean
      generalize text.dropWhile isSlash = start at clean member
      split at member
      · cases member
      have parts : start = start.takeWhile (!isSlash ·) ++ start.dropWhile (!isSlash ·) :=
        takeWhile_append_dropWhile.symm
      have ends : start.dropWhile (!isSlash ·) = [] ∨ ∃ rest, start.dropWhile (!isSlash ·) = slash :: rest := by
        cases left : start.dropWhile (!isSlash ·) with
        | nil => exact .inl rfl
        | cons b rest =>
          have first := head?_dropWhile_not (!isSlash ·) start
          rw [left] at first
          have same : b = slash := by simpa [isSlash] using first
          exact .inr ⟨rest, by rw [same]⟩
      generalize start.takeWhile (!isSlash ·) = word at parts member
      generalize start.dropWhile (!isSlash ·) = left at parts ends member
      subst parts
      rcases ends with rfl | ⟨rest, rfl⟩
      · rw [append_nil] at clean
        rcases mem_cons.mp member with rfl | later
        · exact fun dots => Bool.false_ne_true (clean.symm.trans (hasDots_word dots))
        · cases fuel <;> cases later
      · rw [hasDots_append_slash, Bool.or_eq_false_iff] at clean
        rcases mem_cons.mp member with rfl | later
        · exact fun dots => Bool.false_ne_true (clean.1.symm.trans (hasDots_word dots))
        · exact ih (slash :: rest) clean.2 fragment later
  obtain ⟨fragment, found, rfl⟩ := mem_map.mp member
  exact not_or.mp (general _ text clean fragment found)

lemma hasDots_chunk {chunk : Bytes} (nonempty : chunk ≠ []) (noSlash : slash ∉ chunk) (noDot : dot ∉ chunk)
    (seen : Seen) (rest : Bytes) : hasDots seen (chunk ++ rest) = hasDots .other rest := by
  have all : ∀ (chunk : Bytes) (seen : Seen), slash ∉ chunk -> dot ∉ chunk ->
      hasDots seen (chunk ++ rest) = hasDots (if chunk = [] then seen else .other) rest := by
    intro chunk
    induction chunk with
    | nil => exact fun seen _ _ => rfl
    | cons b chunk ih =>
      intro seen noSlash noDot
      rw [mem_cons, not_or] at noSlash noDot
      rw [cons_append, hasDots, if_neg (Ne.symm noSlash.1), Seen.next, if_neg (Ne.symm noDot.1),
        ih .other noSlash.2 noDot.2, if_neg (cons_ne_nil _ _)]
      split <;> rfl
  rw [all chunk seen noSlash noDot, if_neg nonempty]

lemma escapeChar_plain {c : UInt8} (noSlash : c ≠ slash) (noDot : c ≠ dot) (rest : Bytes) :
    escapeChar false c rest ≠ [] ∧ slash ∉ escapeChar false c rest ∧ dot ∉ escapeChar false c rest := by
  have table : ∀ n < 256, ∀ next ∈ [[], [(1 : UInt8)]], UInt8.ofNat n ∈ [slash, dot, 0xef] ∨
      (escapeChar false (UInt8.ofNat n) next ≠ [] ∧
        (escapeChar false (UInt8.ofNat n) next).all fun b => b ∉ [slash, dot]) := by
    decide +kernel
  by_cases narrow : c = 0xef
  · subst narrow
    have cut : escapeChar false 0xef rest =
        if isFullWidth (getChar rest 0) (getChar rest 1) then quote ++ [0xef] else [0xef] := rfl
    rw [cut]
    split <;> decide
  obtain ⟨next, member, same⟩ := escapeChar_next narrow false rest
  have entry := table c.toNat c.toNat_lt next member
  rw [UInt8.ofNat_toNat] at entry
  rw [same]
  rcases entry with special | ⟨nonempty, plain⟩
  · simp [noSlash, noDot, narrow] at special
  rw [all_eq_true] at plain
  refine ⟨nonempty, fun inside => ?_, fun inside => ?_⟩
  · exact absurd (plain slash inside) (by decide)
  · exact absurd (plain dot inside) (by decide)

lemma hasDots_escapeFrom {left : Nat} {seen out : Seen} (below : out = seen ∨ out = .other)
    (dots : hasDots out (escapeFrom false left name) = true) : hasDots seen name = true := by
  induction name generalizing left seen out with
  | nil =>
    rw [escapeFrom] at dots
    rcases below with rfl | rfl
    · exact dots
    · cases dots
  | cons b rest ih =>
    by_cases isSlash_ : b = slash
    · subst isSlash_
      have cut : escapeFrom false left (slash :: rest) = slash :: escapeFrom false left rest := rfl
      rw [cut, hasDots, if_pos rfl, Bool.or_eq_true] at dots
      rw [hasDots, if_pos rfl, Bool.or_eq_true]
      refine dots.imp (fun ended => ?_) fun later => ih (.inl rfl) later
      rcases below with rfl | rfl
      · exact ended
      · cases ended
    rw [hasDots, if_neg isSlash_]
    by_cases isDot : b = dot
    · subst isDot
      have cut : escapeFrom false left (dot :: rest) = escapeChar false dot rest ++ escapeFrom false left rest := rfl
      have one : escapeChar false dot rest = if getChar rest 0 = 0 then fullWidth 0x8e else [dot] := rfl
      rw [cut, one] at dots
      split at dots
      · rw [hasDots_chunk (by decide) (by decide) (by decide)] at dots
        exact ih (.inr rfl) dots
      have next : out.next dot = seen.next dot ∨ out.next dot = .other := by
        rcases below with rfl | rfl
        · exact .inl rfl
        · exact .inr rfl
      exact ih next dots
    · have chunk : ∃ chunk left', escapeFrom false left (b :: rest) = chunk ++ escapeFrom false left' rest ∧
          chunk ≠ [] ∧ slash ∉ chunk ∧ dot ∉ chunk := by
        have plain := escapeChar_plain isSlash_ isDot rest
        have hexed : percent b ≠ [] ∧ slash ∉ percent b ∧ dot ∉ percent b := by
          refine forall_byte (p := fun b => percent b ≠ [] ∧ slash ∉ percent b ∧ dot ∉ percent b) ?_ b
          decide +kernel
        rw [escapeFrom]
        dsimp only
        split_ifs
        case neg => exact ⟨_, _, rfl, hexed⟩
        all_goals exact ⟨_, _, rfl, plain⟩
      obtain ⟨chunk, left', cut, nonempty, noSlash, noDot⟩ := chunk
      rw [cut, hasDots_chunk nonempty noSlash noDot] at dots
      exact ih (.inr rfl) dots

lemma hasDots_escape (clean : hasDots .start name = false) :
    hasDots .start (escape name false) = false := by
  rw [escape]
  split
  · exact clean
  refine Bool.eq_false_iff.mpr fun dots => Bool.false_ne_true (clean.symm.trans ?_)
  split at dots
  · rw [hasDots_chunk (by decide) (by decide) (by decide)] at dots
    exact hasDots_escapeFrom (.inr rfl) dots
  · exact hasDots_escapeFrom (.inl rfl) dots

lemma names_slash (text : Bytes) : names (slash :: text) = names text := by
  have same : fragmentsFuel (text.length + 1) (slash :: text) = fragmentsFuel (text.length + 1) text := by
    rw [fragmentsFuel, fragmentsFuel, dropWhile_cons_of_pos (by simp [isSlash])]
  rw [names, names, fragments, fragments, length_cons, same, fragmentsFuel_enough le_rfl (Nat.le_succ _)]

lemma names_word {rest : Bytes} (own : Plain name) (ends : rest = [] ∨ rest.head? = some slash) :
    names (name ++ rest) = name :: names rest := by
  rw [← names_slash, names_cons own ends]

lemma names_append {first : Bytes} (ends : first.getLast? = some slash) (second : Bytes) :
    names (first ++ second) = names first ++ names second := by
  induction size : first.length using Nat.strongRecOn generalizing first with
  | _ n ih =>
    subst size
    cases first with
    | nil => cases ends
    | cons b rest =>
      by_cases isSlash_ : b = slash
      · subst isSlash_
        rw [cons_append, names_slash, names_slash]
        cases rest with
        | nil => rfl
        | cons c rest =>
          rw [getLast?_cons_cons] at ends
          exact ih _ (by simp) ends rfl
      have parts : b :: rest = (b :: rest).takeWhile (!isSlash ·) ++ (b :: rest).dropWhile (!isSlash ·) :=
        takeWhile_append_dropWhile.symm
      have own : Plain ((b :: rest).takeWhile (!isSlash ·)) := by
        refine ⟨?_, fun inside => ?_⟩
        · rw [takeWhile_cons_of_pos (by simp [isSlash, isSlash_])]
          exact cons_ne_nil _ _
        · have := mem_takeWhile_imp inside
          simp [isSlash] at this
      have first := head?_dropWhile_not (!isSlash ·) (b :: rest)
      generalize (b :: rest).takeWhile (!isSlash ·) = word at parts own
      generalize (b :: rest).dropWhile (!isSlash ·) = left at parts first
      rw [parts] at ends ⊢
      cases left with
      | nil =>
        rw [append_nil] at ends
        exact absurd (mem_of_getLast? ends) own.2
      | cons c left =>
        obtain rfl : c = slash := by simpa [isSlash] using first
        have shorter : (slash :: left).length < (b :: rest).length := by
          rw [parts, length_append]
          have := length_pos_iff.mpr own.1
          omega
        rw [getLast?_append_of_ne_nil _ (cons_ne_nil _ _)] at ends
        rw [append_assoc, names_word own (.inr rfl), names_word own (.inr rfl)]
        rw [ih _ shorter ends rfl, cons_append]

end EmuCore.Vfs
