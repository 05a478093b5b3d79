import Mathlib.Tactic

namespace EmuCore.Edat.Lz

open BitVec List

abbrev Word := BitVec 32

def ofByte (byte : UInt8) : Word := BitVec.ofNat 32 byte.toNat

/-- The range coder, with the place in the input and the table of probabilities. -/
structure Coder where
  range : Word
  code : Word
  src : Nat
  tmp : Nat -> UInt8

abbrev Decode := StateM Coder

variable (input : Nat -> UInt8)

def decodeRange : Decode Unit := modify fun c =>
  if c.range.toNat >>> 24 = 0 then
    { c with range := c.range <<< 8, code := (c.code <<< 8) + ofByte (input (c.src + 5)), src := c.src + 1 }
  else c

def decodeBit (place : Nat) : Decode Bool := do
  decodeRange input
  let c ← get
  let val := (c.range >>> 8) * ofByte (c.tmp place)
  let less := c.tmp place - (c.tmp place >>> 3)
  if c.code < val then
    set { c with range := val, tmp := Function.update c.tmp place (less + 31) }
    return true
  else
    set { c with code := c.code - val, range := c.range - val, tmp := Function.update c.tmp place less }
    return false

def decodeIndex (index place : Nat) : Decode Nat := return 2 * index + (← decodeBit input place).toNat

def decodeHalves : Nat -> Nat -> Decode Nat
  | 0, i => return i
  | count + 1, i => do
    let c ← get
    let range := c.range >>> 1
    if c.code < range then
      set { c with range := range }
      decodeHalves count (2 * i + 1)
    else
      set { c with range := range, code := c.code - range }
      decodeHalves count (2 * i)

-- decode_number and decode_word differ in their places in the table. The bit that they report is never used.
def decodeDigits (ptr far step index : Nat) : Decode Nat := do
  let mut i := 1
  if index ≥ 3 then
    i ← decodeIndex input i (ptr + far)
    if index ≥ 4 then
      i ← decodeIndex input i (ptr + far)
      if index ≥ 5 then
        decodeRange input
        i ← decodeHalves (index - 4) i
  i ← decodeIndex input i ptr
  if index ≥ 1 then
    i ← decodeIndex input i (ptr + step)
    if index ≥ 2 then
      i ← decodeIndex input i (ptr + 2 * step)
  return i

def decodeNumber (ptr index : Nat) : Decode Nat := decodeDigits input ptr 0x18 8 index

-- Up to 45 bits are shifted into an int.
def decodeWord (ptr index : Nat) : Decode Int := return (BitVec.ofNat 32 (← decodeDigits input ptr 4 1 (index / 8))).toInt

-- `index >> 8` is zero until eight bits were read.
def decodeChar (sect : Nat) : Nat -> Nat -> Decode Nat
  | 0, index => return index
  | bits + 1, index => do decodeChar sect bits (← decodeIndex input index (sect + index - 1))

-- How many bits are set before the first other one, which is `index + 1`.
def lengthField : Nat -> Nat -> Decode Nat
  | 0, _ => return 0
  | left + 1, place => do
    if ← decodeBit input place then return (← lengthField left (place + 8)) + 1 else return 0

-- For `shift + 1`. The last `diff` and bit.
def offsetField (place bSize shift : Nat) : Decode (Nat × Bool) := do
  let bit ← decodeBit input (place + (shift + 1) * 8)
  if (shift + 1) * 16 < bSize then offsetField place bSize (2 * shift + 1 + bit.toNat)
  else return ((shift + 1) * 16 - bSize, bit)
termination_by bSize - (shift + 1) * 16

-- data_length and data_offset, or none at the end of the stream.
def reference (offset written : Nat) : Decode (Option (Nat × Int)) := do
  let ones ← lengthField input 7 (offset + 0xB70)
  let index := ones - 1
  let length ← if ones ≥ 1 then
      decodeNumber input (0xBA8 + (index <<< 5 ||| ((written <<< index) % 4) <<< 3 ||| offset % 8)) index
    else pure 1
  if length = 0xFF then return none
  let sect := ones + 0x7F0
  let (diff, bit) ← if length ≤ 2 then offsetField input (sect + 0xF8) 0x40 0 else offsetField input sect 0x160 0
  if diff > 0 ∨ bit = true then
    let diff := if bit then diff else diff - 8
    return some (length, ← decodeWord input (0x928 + diff) diff)
  else return some (length, 1)

abbrev Bytes := List UInt8

-- Nothing comes back for a reference before the output. What is behind the written bytes is `buffer`.
def copy (buffer : Nat -> UInt8) : Nat -> Int -> Bytes -> Option Bytes
  | 0, _, written => some written
  | count + 1, start, written =>
    if start < 0 then none
    else copy buffer count (start + 1) (written ++ [written.getD start.toNat (buffer start.toNat)])

structure Outcome where
  result : Int
  written : Bytes

def toInt (count : Nat) : Int := (BitVec.ofNat 32 count).toInt

def loop (buffer : Nat -> UInt8) (size : Nat) : Nat -> Coder -> Nat -> UInt8 -> Bytes -> Option Outcome
  | 0, _, _, _, _ => none
  | rounds + 1, c, offset, prev, written =>
    match (decodeBit input (offset + 0xB68)).run c with
    | (false, c) =>
      if written.length = size then some ⟨toInt written.length, written⟩
      else
        let sect := ((((written.length % 8) <<< 8) + prev.toNat) >>> (input 0).toNat) % 8 * 0xFF
        let (index, c) := (decodeChar input sect 8 1).run c
        let byte := UInt8.ofNat index
        loop buffer size rounds c (offset - 1) byte (written ++ [byte])
    | (true, c) =>
      match (reference input offset written.length).run c with
      | (none, _) => some ⟨toInt written.length, written⟩
      | (some (length, back), c) =>
        if (written.length : Int) - back < 0 then some ⟨-1, written⟩
        else
          let stop := written.length + length + 1
          if stop > size then some ⟨-1, written⟩
          else do
            let written ← copy buffer (length + 1) (written.length - back) written
            loop buffer size rounds c ((stop + 1) % 2 + 6) (written.getLastD 0) written

def startCode : Word := ofByte (input 1) <<< 24 ||| ofByte (input 2) <<< 16 ||| ofByte (input 3) <<< 8 ||| ofByte (input 4)

def decompress (buffer : Nat -> UInt8) (size : Nat) : Option Outcome :=
  if input 0 > 0x80 then
    if (startCode input).toNat ≤ size then
      -- `start` is still the start of the output
      some ⟨0, (range (startCode input).toNat).map fun i => input (5 + i)⟩
    else some ⟨-1, []⟩
  else loop input buffer size (size + 1) ⟨0xFFFFFFFF, startCode input, 0, fun i => if i < 0xCA8 then 0x80 else 0⟩ 0 0 []

variable (buffer : Nat -> UInt8) (size : Nat)

lemma copy_length {count : Nat} {start : Int} (inside : 0 ≤ start) (written : Bytes) :
    ∃ copied, copy buffer count start written = some copied ∧ copied.length = written.length + count := by
  induction count generalizing start written with
  | zero => exact ⟨written, rfl, rfl⟩
  | succ count ih =>
    rw [copy, if_neg (by omega)]
    obtain ⟨copied, done, length⟩ := ih (show 0 ≤ start + 1 by omega)
      (written ++ [written.getD start.toNat (buffer start.toNat)])
    refine ⟨copied, done, ?_⟩
    rw [length, length_append, length_singleton]
    omega

lemma loop_counts (rounds : Nat) (c : Coder) (offset : Nat) (prev : UInt8) (written : Bytes)
    (fits : written.length ≤ size) (enough : size < written.length + rounds) :
    ∃ o, loop input buffer size rounds c offset prev written = some o ∧ o.written.length ≤ size ∧
      (o.result = -1 ∨ o.result = toInt o.written.length) := by
  induction rounds generalizing c offset prev written with
  | zero => omega
  | succ rounds ih =>
    rw [loop]
    generalize (decodeBit input (offset + 0xB68)).run c = first
    obtain ⟨bit, c⟩ := first
    cases bit with
    | false =>
      dsimp only
      split
      next => exact ⟨_, rfl, fits, .inr rfl⟩
      next room =>
        generalize (decodeChar input _ 8 1).run c = third
        obtain ⟨index, c⟩ := third
        have longer : (written ++ [UInt8.ofNat index]).length = written.length + 1 := length_append
        exact ih c _ _ _ (by omega) (by omega)
    | true =>
      dsimp only
      generalize (reference input offset written.length).run c = second
      obtain ⟨_ | ⟨length, back⟩, c⟩ := second
      · exact ⟨_, rfl, fits, .inr rfl⟩
      dsimp only
      split
      next => exact ⟨_, rfl, fits, .inl rfl⟩
      next inside =>
        split
        next => exact ⟨_, rfl, fits, .inl rfl⟩
        next room =>
          obtain ⟨copied, done, length⟩ := copy_length buffer (not_lt.mp inside) written
          rw [done]
          exact ih _ _ _ copied (by omega) (by omega)

lemma toInt_eq {count : Nat} (small : count < 2 ^ 32) : toInt count = count ↔ count < 2 ^ 31 := by
  rw [toInt, toInt_eq_toNat_bmod, toNat_ofNat, Nat.mod_eq_of_lt small, Int.bmod_def]
  omega

end EmuCore.Edat.Lz
