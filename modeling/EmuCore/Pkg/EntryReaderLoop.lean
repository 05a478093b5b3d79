import EmuCore.Pkg.EntryReader

namespace EmuCore.Pkg

open Slice Nat

def stream (p : Package) (offset : Nat) : UInt8 :=
  p.byte (p.dataOffset + offset) ^^^ p.keyStream (offset / 16) (offset % 16)

def content (p : Package) (e : Entry) : Buffer := fun i => stream p (e.fileOffset + i)

structure Present (p : Package) (e : Entry) : Prop where
  valid : p.isValid = true
  complete : p.dataOffset + (e.fileOffset + e.fileSize) ≤ p.size
  bounded : p.size ≤ umax

def shifted (p : Package) (offset : Nat) : Buffer := fun i =>
  p.byte (p.dataOffset + (offset + i)) ^^^ p.keyStream (offset / 16 + i / 16) (i % 16)

lemma shifted_aligned (p : Package) {offset : Nat} (aligned : offset % 16 = 0) (i : Nat) :
    shifted p offset i = stream p (offset + i) := by
  have block : (offset + i) / 16 = offset / 16 + i / 16 := by omega
  have place : (offset + i) % 16 = i % 16 := by omega
  rw [shifted, stream, block, place]

lemma shifted_add (p : Package) (offset : Nat) {step : Nat} (whole : step % 16 = 0) (i : Nat) :
    shifted p (offset + step) i = shifted p offset (step + i) := by
  have block : (offset + step) / 16 + i / 16 = offset / 16 + (step + i) / 16 := by omega
  have place : (step + i) % 16 = i % 16 := by omega
  rw [shifted, shifted, block, place, add_assoc offset]

def roundUp (n : Nat) : Nat := (n + 15) / 16 * 16

lemma le_roundUp (n : Nat) : n ≤ roundUp n := by
  rw [roundUp]
  omega

variable {size pos : Nat}

lemma decrypt_present {p : Package} {e : Entry} (present : Present p e) {localSize : Nat}
    (inside : pos + size ≤ e.fileSize) (room : size ≤ localSize) (localBuf : Buffer) :
    decrypt p (e.fileOffset + pos) size localBuf localSize =
      if localSize < roundUp size then none
      else some (size, fun i => if i < size then shifted p (e.fileOffset + pos) i
        else if i < localSize then 0 else localBuf i) := by
  have above : ¬umax - (e.fileOffset + pos) < p.dataOffset := by
    have := present.complete
    have := present.bounded
    omega
  have all : min size (p.size - (p.dataOffset + (e.fileOffset + pos))) = size := by
    have := present.complete
    omega
  have whole := le_roundUp size
  have low : ∀ i < size, applyKeys p ((e.fileOffset + pos) / 16) ((size + 15) / 16)
      (clear (fun i => if i < size then p.byte (p.dataOffset + (e.fileOffset + pos) + i) else localBuf i)
        size localSize) i = shifted p (e.fileOffset + pos) i := by
    intro i low
    have block : i < (size + 15) / 16 * 16 := low.trans_le whole
    rw [applyKeys, if_pos block, clear, if_neg (by omega), if_pos low, shifted, add_assoc p.dataOffset]
  have high : ∀ i, roundUp size ≤ i -> applyKeys p ((e.fileOffset + pos) / 16) ((size + 15) / 16)
      (clear (fun i => if i < size then p.byte (p.dataOffset + (e.fileOffset + pos) + i) else localBuf i)
        size localSize) i = if i < localSize then 0 else localBuf i := by
    intro i high
    have after : ¬i < (size + 15) / 16 * 16 := not_lt.mpr high
    rw [applyKeys, if_neg after, clear]
    by_cases inner : i < localSize
    · rw [if_pos ⟨whole.trans high, inner⟩, if_pos inner]
    · rw [if_neg (by omega), if_neg (not_lt.mpr (whole.trans high)), if_neg inner]
  rw [decrypt, present.valid, if_neg (by simp), if_neg above, if_neg (not_lt.mpr room)]
  simp only [readBlock, all, min_self]
  change (if size < roundUp size then _ else _) = _
  split
  next more =>
    change (if localSize < roundUp size then _ else _) = _
    split
    next => rfl
    next fits =>
      congr 2
      funext i
      rw [clear]
      by_cases early : i < size
      · rw [if_neg (by omega), if_pos early]
        exact low i early
      by_cases late : i < (size + 15) / 16 * 16
      · have inner : i < localSize := late.trans_le (not_lt.mp fits)
        rw [if_pos ⟨not_lt.mp early, late⟩, if_neg early, if_pos inner]
      · rw [if_neg (by omega), if_neg early]
        exact high i (not_lt.mp late)
  next same =>
    rw [if_neg (by omega)]
    congr 2
    funext i
    by_cases early : i < size
    · rw [if_pos early]
      exact low i early
    · rw [if_neg early]
      exact high i (by omega)

def room (e : Entry) (req : Request) : Nat := if req.own then ownSize e else req.size

def Roomy (e : Entry) (req : Request) (size first : Nat) : Prop :=
  (req.own = true -> ownSize e = req.size + bufPadding) ∧ first + roundUp (size - first) ≤ room e req

instance roomyDecidable (e : Entry) (req : Request) (size first : Nat) : Decidable (Roomy e req size first) :=
  inferInstanceAs (Decidable (_ ∧ _))

def looped (p : Package) (e : Entry) (req : Request) (size first pos : Nat) (buf : Buffer) : Buffer := fun i =>
  if i < first then buf i
  else if i < size then shifted p (e.fileOffset + pos) (i - first)
  else if i < room e req then 0 else buf i

variable {first : Nat}

lemma roomy_step (e : Entry) (req : Request) (more : bufSize ≤ size - first) :
    Roomy e req size (first + bufSize) ↔ Roomy e req size first := by
  have whole : first + bufSize + roundUp (size - (first + bufSize)) = first + roundUp (size - first) := by
    simp only [roundUp, bufSize] at *
    omega
  rw [Roomy, Roomy, whole]

section

variable (p : Package) (e : Entry) (req : Request)

include p e req

lemma looped_step (buf : Buffer) (more : bufSize ≤ size - first) :
    looped p e req size (first + bufSize) (pos + bufSize) (fun i =>
        if first ≤ i then
          if i - first < bufSize then shifted p (e.fileOffset + pos) (i - first)
          else if i - first < room e req - first then 0 else buf (first + (i - first))
        else buf i) = looped p e req size first pos buf := by
  have positive : 0 < bufSize := by decide
  funext i
  rw [looped, looped]
  by_cases before : i < first
  · rw [if_pos (by omega), if_neg (by omega), if_pos before]
  rw [if_neg before]
  by_cases block : i < first + bufSize
  · rw [if_pos block, if_pos (by omega), if_pos (by omega), if_pos (by omega)]
  rw [if_neg block]
  by_cases inside : i < size
  · have moved := shifted_add p (e.fileOffset + pos) (by decide : bufSize % 16 = 0) (i - (first + bufSize))
    have same : bufSize + (i - (first + bufSize)) = i - first := by omega
    rw [if_pos inside, if_pos inside, ← add_assoc, moved, same]
  rw [if_neg inside, if_neg inside]
  split
  · rfl
  next outside =>
    have same : first + (i - first) = i := by omega
    rw [if_pos (by omega), if_neg (by omega), if_neg (by omega), same]

lemma looped_last (buf : Buffer) (less : first < size)
    (large : size ≤ room e req) :
    (fun i => if first ≤ i then
        if i - first < size - first then shifted p (e.fileOffset + pos) (i - first)
        else if i - first < room e req - first then 0 else buf (first + (i - first))
      else buf i) = looped p e req size first pos buf := by
  funext i
  rw [looped]
  by_cases before : i < first
  · rw [if_neg (by omega), if_pos before]
  rw [if_neg before, if_pos (by omega)]
  by_cases inside : i < size
  · rw [if_pos (by omega), if_pos inside]
  rw [if_neg (by omega), if_neg inside]
  have same : first + (i - first) = i := by omega
  rw [same]
  by_cases within : i < room e req
  · rw [if_pos (by omega), if_pos within]
  · rw [if_neg (by omega), if_neg within]

lemma readLoop_done {readSize : Nat} (done : size ≤ readSize)
    (fuel pos : Nat) (buf : Buffer) : readLoop p e req size fuel readSize pos buf = some (readSize, buf) := by
  cases fuel with
  | zero => rfl
  | succ fuel => rw [readLoop, if_pos done]

end

lemma readLoop_eq {p : Package} {e : Entry} (present : Present p e) {req : Request} {fuel : Nat}
    (enough : size - first ≤ fuel) (less : first < size) (sized : size ≤ req.size)
    (inside : pos + (size - first) ≤ e.fileSize) (buf : Buffer) :
    readLoop p e req size fuel first pos buf =
      if Roomy e req size first then some (size, looped p e req size first pos buf) else none := by
  induction fuel generalizing first pos buf with
  | zero => omega
  | succ fuel ih =>
    rw [readLoop, if_neg (not_le.mpr less)]
    by_cases own : req.own ∧ ownSize e ≠ req.size + bufPadding
    · rw [if_pos own, if_neg fun roomy => own.2 (roomy.1 own.1)]
    have large : size ≤ room e req := by
      rw [room]
      split
      next mine =>
        have : ownSize e = req.size + bufPadding := by
          by_contra other
          exact own ⟨mine, other⟩
        omega
      next => exact sized
    rw [if_neg own]
    change (if room e req - first < _ then _ else _) = _
    rw [if_neg (by omega)]
    change (decrypt p _ _ _ (room e req - first)).bind _ = _
    by_cases last : size - first ≤ bufSize
    · rw [min_eq_right last, decrypt_present present inside (by omega)]
      by_cases roomy : Roomy e req size first
      · have fits := roomy.2
        rw [if_neg (by omega), if_pos roomy, Option.bind_some]
        rw [if_neg (by omega), readLoop_done p e req (by omega), looped_last p e req buf less large]
        congr 2
        omega
      · have small : room e req - first < roundUp (size - first) := by
          by_contra fits
          refine roomy ⟨fun mine => ?_, by omega⟩
          by_contra other
          exact own ⟨mine, other⟩
        rw [if_pos small, if_neg roomy]
        rfl
    · have more : bufSize ≤ size - first := Nat.le_of_not_le last
      have whole : roundUp bufSize = bufSize := by decide
      have positive : bufSize ≠ 0 := by decide
      rw [min_eq_left more, decrypt_present present (by omega) (by omega), whole]
      rw [if_neg (by omega), Option.bind_some]
      rw [if_neg positive, ih (by omega) (by omega) (by omega), looped_step p e req buf more]
      simp only [roomy_step e req more]

end EmuCore.Pkg
