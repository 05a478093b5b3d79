import Mathlib.Tactic

namespace EmuCore.Util

open List

abbrev Bytes := List UInt8

scoped instance byteLinearOrder : LinearOrder UInt8 where
  le_refl := UInt8.le_refl
  le_trans _ _ _ := UInt8.le_trans
  le_antisymm _ _ := UInt8.le_antisymm
  le_total := UInt8.le_total
  lt_iff_le_not_ge _ _ := by
    rw [UInt8.lt_iff_toNat_lt, UInt8.le_iff_toNat_le, UInt8.le_iff_toNat_le]
    exact Nat.lt_iff_le_and_not_ge
  toDecidableLE := inferInstance

/- Reading a file at a position: all of what is asked for, or nothing. -/

def read (file : Bytes) (pos size : Nat) : Option Bytes :=
  let part := (file.drop pos).take size
  if part.length = size then some part else none

lemma read_append {before part after : Bytes} {pos size : Nat} (place : before.length = pos)
    (count : part.length = size) : read (before ++ (part ++ after)) pos size = some part := by
  subst place count
  simp [read]

/- A stream over a vector of bytes. -/

structure Stream where
  obj : Bytes
  pos : Nat

namespace Stream

def resize (obj : Bytes) (length : Nat) : Bytes := obj.take length ++ List.replicate (length - obj.length) 0

variable (stream : Stream)

-- A gap before the position is filled. Then old bytes are written over, and the rest is appended.
def write (buffer : Bytes) : Stream :=
  let obj := if stream.obj.length < stream.pos then resize stream.obj stream.pos else stream.obj
  { obj := obj.take stream.pos ++ buffer ++ obj.drop (stream.pos + buffer.length)
    pos := stream.pos + buffer.length }

def seek (pos : Nat) : Stream := { stream with pos }

def seekCur (offset : Nat) : Stream := { stream with pos := stream.pos + offset }

-- The stream is cut off, or filled up, at its position.
def trunc : Stream := { stream with obj := resize stream.obj stream.pos }

def atEnd (obj : Bytes) : Stream := ⟨obj, obj.length⟩

lemma write_atEnd (obj buffer : Bytes) : (atEnd obj).write buffer = atEnd (obj ++ buffer) := by
  simp [write, atEnd]

lemma seek_trunc_atEnd {obj : Bytes} {pos : Nat} (after : obj.length ≤ pos) :
    ((atEnd obj).seek pos).trunc = atEnd (obj ++ List.replicate (pos - obj.length) 0) := by
  have length : (obj ++ List.replicate (pos - obj.length) (0 : UInt8)).length = pos := by
    rw [length_append, length_replicate]
    omega
  simp only [seek, trunc, atEnd, resize, take_of_length_le after, length]

lemma seekCur_trunc_atEnd (obj : Bytes) (offset : Nat) :
    ((atEnd obj).seekCur offset).trunc = atEnd (obj ++ List.replicate offset 0) := by
  have moved : (atEnd obj).seekCur offset = (atEnd obj).seek (obj.length + offset) := rfl
  rw [moved, seek_trunc_atEnd (Nat.le_add_right _ _), Nat.add_sub_cancel_left]

lemma foldl_atEnd {α : Type} {step : Stream -> α -> Stream} {bytes : α -> Bytes}
    (appends : ∀ obj a, step (atEnd obj) a = atEnd (obj ++ bytes a)) (obj : Bytes) (l : List α) :
    l.foldl step (atEnd obj) = atEnd (obj ++ l.flatMap bytes) := by
  induction l generalizing obj with
  | nil => simp
  | cons a l ih => rw [foldl_cons, appends, ih, flatMap_cons, append_assoc]

end Stream

end EmuCore.Util
