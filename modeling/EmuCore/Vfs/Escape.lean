import Mathlib.Tactic

namespace EmuCore.Vfs

abbrev Bytes := List UInt8

-- The loops below walk over suffixes of the name; past its end it reads as NUL.
def getChar (rest : Bytes) (pos : Nat) : UInt8 := rest.getD pos 0

def slash : UInt8 := 0x2f

def dot : UInt8 := 0x2e

-- The characters U+FF00 to U+FF3F. Those up to U+FF7F have 0xbd as their second byte.
def fullWidth (third : UInt8) : Bytes := [0xef, 0xbc, third]

-- u8"！"
def quote : Bytes := fullWidth 0x81

def between (low high b : UInt8) : Bool := decide (low ≤ b) && decide (b ≤ high)

def utf8Lead (b0 b1 : UInt8) : Nat :=
  if b0 < 0x80 then 1
  else if between 0xc2 0xdf b0 && between 0x80 0xbf b1 then 2
  else if b0 = 0xe0 && between 0xa0 0xbf b1 then 3
  else if b0 = 0xed && between 0x80 0x9f b1 then 3
  else if between 0xe1 0xef b0 && between 0x80 0xbf b1 then 3
  else if b0 = 0xf0 && between 0x90 0xbf b1 then 4
  else if b0 = 0xf4 && between 0x80 0x8f b1 then 4
  else if between 0xf1 0xf3 b0 && between 0x80 0xbf b1 then 4
  else 0

def utf8SequenceSize (name : Bytes) : Nat :=
  let size := utf8Lead (getChar name 0) (getChar name 1)
  if (List.range' 2 (size - 2)).all fun i => between 0x80 0xbf (getChar name i) then size else 0

def hex (digit : UInt8) : UInt8 := if digit < 10 then 0x30 + digit else 0x41 + (digit - 10)

def percent (b : UInt8) : Bytes := fullWidth 0x85 ++ [hex (b >>> 4), hex (b &&& 0xf)]

def isFullWidth (second third : UInt8) : Bool :=
  second = 0xbc && between 0x81 0xbf third || second = 0xbd && between 0x80 0x9e third

def escapeChar (escapeSlash : Bool) (c : UInt8) (rest : Bytes) : Bytes :=
  if c ≤ 9 then fullWidth (0x90 + c)
  else if c ≤ 31 then fullWidth (0xa1 + c - 10)
  else match c with
    | 0x3c => fullWidth 0x9c
    | 0x3e => fullWidth 0x9e
    | 0x3a => fullWidth 0x9a
    | 0x22 => fullWidth 0x82
    | 0x5c => fullWidth 0xbc
    | 0x7c => [0xef, 0xbd, 0x9c]
    | 0x3f => fullWidth 0x9f
    | 0x2a => fullWidth 0x8a
    | 0x2f => if escapeSlash then fullWidth 0x8f else [c]
    | 0x2e => if getChar rest 0 = 0 then fullWidth 0x8e else [c]
    | 0x20 => if getChar rest 0 = 0 then fullWidth 0xbf else [c]
    | 0xef => if isFullWidth (getChar rest 0) (getChar rest 1) then quote ++ [c] else [c]
    | _ => [c]

def escapeFrom (escapeSlash : Bool) : Nat -> Bytes -> Bytes
  | _, [] => []
  | utf8Left, b :: rest =>
    if 0x80 ≤ b then
      if utf8Left ≠ 0 then escapeChar escapeSlash b rest ++ escapeFrom escapeSlash (utf8Left - 1) rest
      else
        let size := utf8SequenceSize (b :: rest)
        if size ≠ 0 then escapeChar escapeSlash b rest ++ escapeFrom escapeSlash (size - 1) rest
        else percent b ++ escapeFrom escapeSlash utf8Left rest
    else escapeChar escapeSlash b rest ++ escapeFrom escapeSlash utf8Left rest

def toUpper (c : UInt8) : UInt8 := if between 0x61 0x7a c then c - 0x20 else c

-- COM1 to LPT9, NUL, CON, AUX and PRN, alone or before a dot.
def isReserved (name : Bytes) : Bool :=
  let triple := (name.take 3).map toUpper
  let ends (pos : Nat) : Bool := name.length = pos || getChar name pos = dot
  if triple = [0x43, 0x4f, 0x4d] || triple = [0x4c, 0x50, 0x54] then
    name.length ≥ 4 && between 0x31 0x39 (getChar name 3) && ends 4
  else
    (triple = [0x4e, 0x55, 0x4c] || triple = [0x43, 0x4f, 0x4e] || triple = [0x41, 0x55, 0x58] ||
      triple = [0x50, 0x52, 0x4e]) && ends 3

def escape (name : Bytes) (escapeSlash : Bool) : Bytes :=
  if name.length ≤ 2 && name.all (· = dot) then name
  else (if isReserved name then quote else []) ++ escapeFrom escapeSlash 0 name

-- What one round of the loop adds to the result, and how many bytes it steps over besides its own.
inductive Round
  | emit (bytes : Bytes) (skip : Nat)
  | stop (bytes : Bytes)

def digit (h : UInt8) : Option UInt8 :=
  if between 0x30 0x39 h then some (h - 0x30)
  else if between 0x41 0x46 h then some (h - 0x41 + 10)
  else none

-- Characters that stand for one byte. All others are dropped.
def substituted (third : UInt8) : Bytes :=
  if between 0x90 0x99 third then [third - 0x90]
  else if between 0xa1 0xb6 third then [third - 0xa1 + 10]
  else match third with
    | 0xbf => [0x20]
    | 0x8e => [0x2e]
    | 0x9c => [0x3c]
    | 0x9e => [0x3e]
    | 0x9a => [0x3a]
    | 0x82 => [0x22]
    | 0xbc => [0x5c]
    | 0x9f => [0x3f]
    | 0x8a => [0x2a]
    | _ => []

def unescapeFullWidth (first : Bool) (third : UInt8) (rest : Bytes) : Round :=
  if third = 0x81 then
    if getChar rest 2 ≠ 0 then .emit [getChar rest 2] 3 else .stop []
  else if third = 0x85 then
    match digit (getChar rest 2), digit (getChar rest 3) with
    | some hi, some lo => .emit [hi * 16 + lo] 4
    | _, _ => .emit [] 2
  else if third = 0x84 && first then .stop [dot]
  else .emit (substituted third) 2

def unescapeRound (first : Bool) (c : UInt8) (rest : Bytes) : Round :=
  if c = 0 then .stop []
  else if c = 0xef then
    let third := getChar rest 1
    if getChar rest 0 = 0xbc then
      if between 0x81 0xbf third then unescapeFullWidth first third rest else .emit [c] 0
    else if getChar rest 0 = 0xbd then
      if between 0x80 0x9e third then .emit (if third = 0x9c then [0x7c] else []) 2 else .emit [c] 0
    else .emit [c] 0
  else .emit [c] 0

def unescapeFrom : Bool -> Nat -> Bytes -> Bytes
  | _, _, [] => []
  | _, skip + 1, _ :: rest => unescapeFrom false skip rest
  | first, 0, c :: rest =>
    match unescapeRound first c rest with
    | .emit bytes skip => bytes ++ unescapeFrom false skip rest
    | .stop bytes => bytes

def unescape (name : Bytes) : Bytes := unescapeFrom true 0 name

lemma between_iff {low high b : UInt8} : between low high b = true ↔ low ≤ b ∧ b ≤ high := by
  simp [between]

lemma forall_byte {p : UInt8 -> Prop} (all : ∀ n < 256, p (UInt8.ofNat n)) (b : UInt8) : p b := by
  have := all b.toNat b.toNat_lt
  rwa [UInt8.ofNat_toNat] at this

lemma unescapeFrom_skip (skipped rest : Bytes) :
    unescapeFrom false skipped.length (skipped ++ rest) = unescapeFrom false 0 rest := by
  induction skipped with
  | nil => rfl
  | cons b skipped ih => exact ih

lemma unescapeFrom_emit {first : Bool} {c : UInt8} (skipped : Bytes) {rest bytes : Bytes}
    (emits : unescapeRound first c (skipped ++ rest) = .emit bytes skipped.length) :
    unescapeFrom first 0 (c :: (skipped ++ rest)) = bytes ++ unescapeFrom false 0 rest := by
  rw [unescapeFrom, emits]
  dsimp only
  rw [unescapeFrom_skip]

lemma unescape_plain {c : UInt8} (wide : c ≠ 0xef) (ends : c ≠ 0) (first : Bool) (rest : Bytes) :
    unescapeFrom first 0 (c :: rest) = c :: unescapeFrom false 0 rest := by
  have emits : unescapeRound first c rest = .emit [c] 0 := by rw [unescapeRound, if_neg ends, if_neg wide]
  exact unescapeFrom_emit [] emits

lemma unescape_other {rest : Bytes} (other : isFullWidth (getChar rest 0) (getChar rest 1) = false)
    (first : Bool) : unescapeFrom first 0 (0xef :: rest) = 0xef :: unescapeFrom false 0 rest := by
  have emits : unescapeRound first 0xef rest = .emit [0xef] 0 := by
    rw [isFullWidth, Bool.or_eq_false_iff, Bool.and_eq_false_iff, Bool.and_eq_false_iff] at other
    simp only [decide_eq_false_iff_not] at other
    rw [unescapeRound, if_neg (by decide), if_pos rfl]
    split
    next low =>
      rw [if_neg]
      simpa [low] using other.1
    next =>
      split
      next high =>
        rw [if_neg]
        simpa [high] using other.2
      next => rfl
  exact unescapeFrom_emit [] emits

lemma unescapeRound_fullWidth {third : UInt8} (inside : between 0x81 0xbf third = true) (first : Bool)
    (rest : Bytes) :
    unescapeRound first 0xef ([0xbc, third] ++ rest) = unescapeFullWidth first third ([0xbc, third] ++ rest) := by
  rw [unescapeRound, if_neg (by decide), if_pos rfl]
  exact if_pos inside

lemma unescape_quoted {c : UInt8} (ends : c ≠ 0) (first : Bool) (rest : Bytes) :
    unescapeFrom first 0 (quote ++ c :: rest) = c :: unescapeFrom false 0 rest := by
  have emits : unescapeRound first 0xef ([0xbc, 0x81, c] ++ rest) = .emit [c] 3 := by
    refine (unescapeRound_fullWidth (by decide) first (c :: rest)).trans ?_
    rw [unescapeFullWidth, if_pos rfl]
    exact if_pos ends
  exact unescapeFrom_emit [0xbc, 0x81, c] emits

lemma digit_hex : ∀ b : UInt8, ∃ hi lo, digit (hex (b >>> 4)) = some hi ∧ digit (hex (b &&& 0xf)) = some lo ∧
    hi * 16 + lo = b := by
  refine forall_byte fun n small => ⟨UInt8.ofNat n >>> 4, UInt8.ofNat n &&& 0xf, ?_⟩
  revert n
  decide +kernel

lemma unescape_percent (b : UInt8) (first : Bool) (rest : Bytes) :
    unescapeFrom first 0 (percent b ++ rest) = b :: unescapeFrom false 0 rest := by
  obtain ⟨hi, lo, high, low, whole⟩ := digit_hex b
  have emits : unescapeRound first 0xef ([0xbc, 0x85, hex (b >>> 4), hex (b &&& 0xf)] ++ rest) = .emit [b] 4 := by
    refine (unescapeRound_fullWidth (by decide) first ([hex (b >>> 4), hex (b &&& 0xf)] ++ rest)).trans ?_
    simp [unescapeFullWidth, getChar, high, low, whole]
  exact unescapeFrom_emit [0xbc, 0x85, hex (b >>> 4), hex (b &&& 0xf)] emits

lemma unescape_substitute {third : UInt8} {bytes : Bytes} (reads : substituted third = bytes)
    (inside : between 0x81 0xbf third = true) (special : third ≠ 0x81 ∧ third ≠ 0x85 ∧ third ≠ 0x84)
    (first : Bool) (rest : Bytes) :
    unescapeFrom first 0 (fullWidth third ++ rest) = bytes ++ unescapeFrom false 0 rest := by
  refine unescapeFrom_emit [0xbc, third] ((unescapeRound_fullWidth inside first rest).trans ?_)
  simp [unescapeFullWidth, special, reads]

end EmuCore.Vfs
