import EmuCore.Vfs.Escape

namespace EmuCore.Vfs

open List Nat

lemma escapeChar_next {c : UInt8} (narrow : c ≠ 0xef) (escapeSlash : Bool) (rest : Bytes) :
    ∃ next ∈ [[], [(1 : UInt8)]], escapeChar escapeSlash c rest = escapeChar escapeSlash c next := by
  have general : ∀ other : Bytes, (getChar rest 0 = 0 ↔ getChar other 0 = 0) ->
      escapeChar escapeSlash c rest = escapeChar escapeSlash c other := by
    intro other same
    simp only [escapeChar, same]
    split
    · rfl
    · split
      · rfl
      · split <;> first | rfl | contradiction
  by_cases ends : getChar rest 0 = 0
  · exact ⟨[], by simp, general [] (iff_of_true ends rfl)⟩
  · exact ⟨[1], by simp, general [1] (iff_of_false ends (by decide))⟩

-- Four forms: the byte itself, a character that is read as the byte, the bar and an escaped slash.
def Escaped (escapeSlash : Bool) (b : UInt8) (bytes : Bytes) : Prop :=
  bytes = [b] ∧ b ≠ 0 ∧ (escapeSlash && b = slash) = false ∨
    (∃ third ∈ bytes.drop 2, bytes = fullWidth third ∧ between 0x81 0xbf third = true ∧
      (third ≠ 0x81 ∧ third ≠ 0x85 ∧ third ≠ 0x84) ∧
      substituted third = if escapeSlash && b = slash then [] else [b]) ∨
    bytes = [0xef, 0xbd, 0x9c] ∧ b = 0x7c

instance (escapeSlash : Bool) (b : UInt8) (bytes : Bytes) : Decidable (Escaped escapeSlash b bytes) :=
  inferInstanceAs (Decidable (_ ∨ _ ∨ _))

variable {b : UInt8}

lemma escapeChar_ascii (escapeSlash : Bool) (ascii : b < 0x80) (rest : Bytes) :
    Escaped escapeSlash b (escapeChar escapeSlash b rest) := by
  have table : ∀ n < 128, ∀ escapeSlash, ∀ next ∈ [[], [(1 : UInt8)]],
      Escaped escapeSlash (UInt8.ofNat n) (escapeChar escapeSlash (UInt8.ofNat n) next) := by decide +kernel
  have narrow : b ≠ 0xef := by
    rintro rfl
    exact absurd ascii (by decide)
  obtain ⟨next, member, same⟩ := escapeChar_next narrow escapeSlash rest
  have entry := table b.toNat (UInt8.lt_iff_toNat_lt.mp ascii) escapeSlash next member
  rwa [UInt8.ofNat_toNat, ← same] at entry

lemma escapeChar_high (high : 0x80 ≤ b) (narrow : b ≠ 0xef) (escapeSlash : Bool) (rest : Bytes) :
    escapeChar escapeSlash b rest = [b] := by
  have table : ∀ n < 256, 0x80 ≤ UInt8.ofNat n -> UInt8.ofNat n ≠ 0xef -> ∀ escapeSlash,
      ∀ next ∈ [[], [(1 : UInt8)]], escapeChar escapeSlash (UInt8.ofNat n) next = [UInt8.ofNat n] := by
    decide +kernel
  obtain ⟨next, member, same⟩ := escapeChar_next narrow escapeSlash rest
  have entry := table b.toNat b.toNat_lt
  rw [UInt8.ofNat_toNat] at entry
  rw [same, entry high narrow escapeSlash next member]

lemma unescape_ascii (escapeSlash : Bool) (ascii : b < 0x80) (rest tail : Bytes) (first : Bool) :
    unescapeFrom first 0 (escapeChar escapeSlash b rest ++ tail) =
      (if escapeSlash && b = slash then [] else [b]) ++ unescapeFrom false 0 tail := by
  rcases escapeChar_ascii escapeSlash ascii rest with
    ⟨plain, ends, kept⟩ | ⟨third, -, wide, inside, special, reads⟩ | ⟨bar, rfl⟩
  · have narrow : b ≠ 0xef := by
      rintro rfl
      exact absurd ascii (by decide)
    rw [plain, if_neg (by simp [kept])]
    exact unescape_plain narrow ends first tail
  · rw [wide]
    exact unescape_substitute reads inside special first tail
  · rw [bar, if_neg (by simp [slash])]
    simp [unescapeFrom, unescapeRound, getChar, between_iff]

def Continues : Nat -> Bytes -> Prop
  | 0, _ => True
  | _ + 1, [] => False
  | left + 1, b :: rest => between 0x80 0xbf b = true ∧ Continues left rest

variable {name : Bytes} {left : Nat}

lemma continues_of_getChar (each : ∀ i < left, between 0x80 0xbf (getChar name i) = true) : Continues left name := by
  induction left generalizing name with
  | zero => trivial
  | succ left ih =>
    cases name with
    | nil => exact absurd (each 0 (succ_pos left)) (by decide)
    | cons b rest => exact ⟨each 0 (succ_pos left), ih fun i below => each (i + 1) (succ_lt_succ below)⟩

-- The second byte rules out what is overlong or past U+10FFFF, but not half a surrogate pair.
lemma utf8Lead_cases {b0 : UInt8} (high : 0x80 ≤ b0) (b1 : UInt8) :
    utf8Lead b0 b1 = 0 ∨ (0x80 ≤ b1.toNat ∧ b1.toNat ≤ 0xbf) ∧
      (utf8Lead b0 b1 = 2 ∧ 0xc2 ≤ b0.toNat ∧ b0.toNat ≤ 0xdf ∨
        utf8Lead b0 b1 = 3 ∧ 0xe0 ≤ b0.toNat ∧ b0.toNat ≤ 0xef ∧ (b0.toNat = 0xe0 -> 0xa0 ≤ b1.toNat) ∨
        utf8Lead b0 b1 = 4 ∧ 0xf0 ≤ b0.toNat ∧ b0.toNat ≤ 0xf4 ∧ (b0.toNat = 0xf0 -> 0x90 ≤ b1.toNat) ∧
          (b0.toNat = 0xf4 -> b1.toNat ≤ 0x8f)) := by
  rw [utf8Lead, if_neg (UInt8.not_lt.mpr high)]
  simp only [between, Bool.and_eq_true, decide_eq_true_eq, UInt8.le_iff_toNat_le, ← UInt8.toNat_inj] at *
  split_ifs <;> simp_all <;> omega

lemma utf8SequenceSize_cases (b : UInt8) (rest : Bytes) :
    utf8SequenceSize (b :: rest) = 0 ∨
      utf8SequenceSize (b :: rest) = utf8Lead b (getChar rest 0) ∧
        ∀ i, i + 2 < utf8Lead b (getChar rest 0) -> between 0x80 0xbf (getChar rest (i + 1)) = true := by
  rw [utf8SequenceSize]
  split
  next all =>
    refine .inr ⟨rfl, fun i below => all_eq_true.mp all (i + 2) (mem_range'_1.mpr ?_)⟩
    have : getChar (b :: rest) 0 = b ∧ getChar (b :: rest) 1 = getChar rest 0 := ⟨rfl, rfl⟩
    rw [this.1, this.2]
    omega
  next => exact .inl rfl

lemma utf8SequenceSize_continues {rest : Bytes} (high : 0x80 ≤ b) (found : utf8SequenceSize (b :: rest) ≠ 0) :
    Continues (utf8SequenceSize (b :: rest) - 1) rest := by
  obtain ⟨size, later⟩ := (utf8SequenceSize_cases b rest).resolve_left found
  rw [size] at found ⊢
  have second := ((utf8Lead_cases high _).resolve_left found).1
  refine continues_of_getChar fun i below => ?_
  cases i with
  | zero => exact between_iff.mpr ⟨UInt8.le_iff_toNat_le.mpr second.1, UInt8.le_iff_toNat_le.mpr second.2⟩
  | succ i => exact later i (by omega)

lemma utf8SequenceSize_wide {rest : Bytes} (found : utf8SequenceSize (0xef :: rest) ≠ 0) :
    utf8SequenceSize (0xef :: rest) = 3 := by
  have lead (next : UInt8) : utf8Lead 0xef next = 0 ∨ utf8Lead 0xef next = 3 := by
    have bounds : between 0xc2 0xdf 0xef = false ∧ between 0xe1 0xef 0xef = true ∧ between 0xf1 0xf3 0xef = false := by
      decide
    by_cases trailing : between 0x80 0xbf next = true
    · exact .inr (by simp [utf8Lead, bounds, trailing])
    · exact .inl (by simp [utf8Lead, bounds, trailing])
  obtain ⟨size, -⟩ := (utf8SequenceSize_cases 0xef rest).resolve_left found
  rw [size] at found ⊢
  exact (lead _).resolve_left found

lemma escapeFrom_continues (continues : Continues left name) (escapeSlash : Bool) :
    escapeFrom escapeSlash left name = name.take left ++ escapeFrom escapeSlash 0 (name.drop left) := by
  induction left generalizing name with
  | zero => rfl
  | succ left ih =>
    cases name with
    | nil => exact continues.elim
    | cons b rest =>
      obtain ⟨inside, continues⟩ := continues
      rw [between_iff] at inside
      have narrow : b ≠ 0xef := by
        rintro rfl
        exact absurd inside.2 (by decide)
      rw [escapeFrom, if_pos inside.1, if_pos (Nat.succ_ne_zero left), Nat.add_sub_cancel, ih continues,
        escapeChar_high inside.1 narrow]
      rfl

lemma getChar_continues (continues : Continues 2 name) (escapeSlash : Bool) :
    getChar (escapeFrom escapeSlash 2 name) 0 = getChar name 0 ∧
      getChar (escapeFrom escapeSlash 2 name) 1 = getChar name 1 := by
  rw [escapeFrom_continues continues]
  match name, continues with
  | _ :: _ :: rest, _ => exact ⟨rfl, rfl⟩

lemma unescape_sequence (escapeSlash : Bool) {rest : Bytes} (high : 0x80 ≤ b) (continues : Continues left rest)
    (wide : b = 0xef -> left = 2) (first : Bool) :
    unescapeFrom first 0 (escapeChar escapeSlash b rest ++ escapeFrom escapeSlash left rest) =
      b :: unescapeFrom false 0 (escapeFrom escapeSlash left rest) := by
  by_cases narrow : b = 0xef
  · obtain rfl := wide narrow
    subst narrow
    have ahead := getChar_continues continues escapeSlash
    have cut : escapeChar escapeSlash 0xef rest =
        if isFullWidth (getChar rest 0) (getChar rest 1) then quote ++ [0xef] else [0xef] := rfl
    rw [cut]
    split
    next =>
      rw [append_assoc]
      exact unescape_quoted (by decide) first _
    next other =>
      refine unescape_other ?_ first
      exact (congrArg₂ isFullWidth ahead.1 ahead.2).trans (Bool.eq_false_iff.mpr other)
  · rw [escapeChar_high high narrow]
    refine unescape_plain narrow ?_ first _
    rintro rfl
    exact absurd high (by decide)

lemma unescape_escapeFrom (escapeSlash : Bool) (continues : Continues left name) (first : Bool) :
    unescapeFrom first 0 (escapeFrom escapeSlash left name) =
      name.filter fun b => !(escapeSlash && b = slash) := by
  induction name generalizing left first with
  | nil => cases left <;> rfl
  | cons b rest ih =>
    have anew : Continues 0 rest := trivial
    rw [escapeFrom]
    by_cases high : 0x80 ≤ b
    · have kept : (!(escapeSlash && decide (b = slash))) = true := by
        have : b ≠ slash := by
          rintro rfl
          exact absurd high (by decide)
        simp [this]
      rw [if_pos high, filter_cons, if_pos kept]
      cases left with
      | succ left =>
        obtain ⟨inside, continues⟩ := continues
        have narrow : b ≠ 0xef := by
          rintro rfl
          exact absurd inside (by decide)
        rw [if_pos (Nat.succ_ne_zero left), Nat.add_sub_cancel,
          unescape_sequence escapeSlash high continues fun wide => absurd wide narrow, ih continues]
      | zero =>
        rw [if_neg (not_not.mpr rfl)]
        dsimp only
        split
        next found =>
          have continues := utf8SequenceSize_continues high found
          rw [unescape_sequence escapeSlash high continues, ih continues]
          rintro rfl
          rw [utf8SequenceSize_wide found]
        next => rw [unescape_percent, ih anew]
    · have ascii := UInt8.not_le.mp high
      have start : left = 0 := by
        cases left with
        | zero => rfl
        | succ left => exact absurd (between_iff.mp continues.1).1 high
      subst start
      rw [if_neg high, unescape_ascii escapeSlash ascii, ih anew, filter_cons]
      by_cases escaped : (escapeSlash && decide (b = slash)) = true <;> simp [escaped]

lemma unescape_dots (dots : (name.all (· = dot)) = true) (first : Bool) :
    unescapeFrom first 0 name = name := by
  induction name generalizing first with
  | nil => rfl
  | cons b rest ih =>
    rw [all_cons, Bool.and_eq_true, decide_eq_true_iff] at dots
    rw [unescape_plain (by rw [dots.1]; decide) (by rw [dots.1]; decide), ih dots.2]

lemma escapeChar_letter {c : UInt8} (letter : between 0x41 0x5a (toUpper c) = true) :
    c ≠ 0 ∧ c ≠ 0xef ∧ c < 0x80 ∧ ∀ escapeSlash rest, escapeChar escapeSlash c rest = [c] := by
  have table : ∀ n < 256, between 0x41 0x5a (toUpper (UInt8.ofNat n)) = true ->
      UInt8.ofNat n ≠ 0 ∧ UInt8.ofNat n ≠ 0xef ∧ UInt8.ofNat n < 0x80 ∧ ∀ escapeSlash,
        ∀ next ∈ [[], [(1 : UInt8)]], escapeChar escapeSlash (UInt8.ofNat n) next = [UInt8.ofNat n] := by
    decide +kernel
  have entry := table c.toNat c.toNat_lt
  rw [UInt8.ofNat_toNat] at entry
  obtain ⟨ends, narrow, ascii, plain⟩ := entry letter
  refine ⟨ends, narrow, ascii, fun escapeSlash rest => ?_⟩
  obtain ⟨next, member, same⟩ := escapeChar_next narrow escapeSlash rest
  rw [same, plain escapeSlash next member]

lemma reserved_first (reserved : isReserved name = true) :
    ∃ c rest, name = c :: rest ∧ between 0x41 0x5a (toUpper c) = true := by
  cases name with
  | nil => exact absurd reserved (by decide)
  | cons c rest =>
    have letter : toUpper c = 0x43 ∨ toUpper c = 0x4c ∨ toUpper c = 0x4e ∨ toUpper c = 0x41 ∨ toUpper c = 0x50 := by
      by_contra other
      simp only [not_or] at other
      simp [isReserved, other] at reserved
    refine ⟨c, rest, rfl, ?_⟩
    rcases letter with upper | upper | upper | upper | upper <;> rw [upper] <;> rfl

lemma unescape_escape (name : Bytes) (escapeSlash : Bool) :
    unescape (escape name escapeSlash) = name.filter fun b => !(escapeSlash && b = slash) := by
  have start : Continues 0 name := trivial
  have whole := unescape_escapeFrom escapeSlash start
  rw [unescape, escape]
  split
  next short =>
    rw [Bool.and_eq_true] at short
    rw [unescape_dots short.2, filter_eq_self.mpr]
    intro b member
    have := of_decide_eq_true (all_eq_true.mp short.2 b member)
    simp [this, dot, slash]
  next =>
    split
    next reserved =>
      obtain ⟨c, rest, rfl, letter⟩ := reserved_first reserved
      obtain ⟨ends, narrow, ascii, plain⟩ := escapeChar_letter letter
      have cut : escapeFrom escapeSlash 0 (c :: rest) = c :: escapeFrom escapeSlash 0 rest := by
        rw [escapeFrom, if_neg (UInt8.not_le.mpr ascii), plain]
        rfl
      rw [cut] at whole ⊢
      rw [unescape_quoted ends, ← unescape_plain narrow ends true, whole true]
    next => exact whole true

theorem unescape_escape_iff (name : Bytes) (escapeSlash : Bool) :
    unescape (escape name escapeSlash) = name ↔ (escapeSlash = true -> slash ∉ name) := by
  rw [unescape_escape, filter_eq_self]
  constructor
  · rintro kept rfl member
    exact absurd (kept slash member) (by simp)
  intro absent b member
  by_cases escaped : escapeSlash = true
  · have : b ≠ slash := fun same => absent escaped (same ▸ member)
    simp [this]
  · simp [escaped]

-- "a/b" comes back as "ab": the full-width slash is not among the characters that unescape knows.
theorem unescape_escape_slash : unescape (escape [0x61, 0x2f, 0x62] true) ≠ [0x61, 0x2f, 0x62] := by
  decide

end EmuCore.Vfs
