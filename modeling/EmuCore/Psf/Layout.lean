import EmuCore.Psf.Registry

namespace EmuCore.Psf

open EmuCore.Util LittleEndian List

structure Header.Fits (header : Header) : Prop where
  magic : header.magic < 2 ^ 32
  version : header.version < 2 ^ 32
  offKeyTable : header.offKeyTable < 2 ^ 32
  offDataTable : header.offDataTable < 2 ^ 32
  entriesNum : header.entriesNum < 2 ^ 32

lemma Header.length_bytes (header : Header) : header.bytes.length = headerSize := length_record _

lemma Header.ofBytes_bytes {header : Header} (fits : header.Fits) : Header.ofBytes header.bytes = header := by
  obtain ⟨magic, version, offKeyTable, offDataTable, entriesNum⟩ := header
  rw [ofBytes, bytes]
  congr 1
  · exact decodeAt_first fits.magic _
  · rw [decodeAt_later, decodeAt_first fits.version]
  · rw [decodeAt_later, decodeAt_later, decodeAt_first fits.offKeyTable]
  · rw [decodeAt_later, decodeAt_later, decodeAt_later, decodeAt_first fits.offDataTable]
  · rw [decodeAt_later, decodeAt_later, decodeAt_later, decodeAt_later, decodeAt_first fits.entriesNum]

structure DefTable.Fits (index : DefTable) : Prop where
  keyOff : index.keyOff < 2 ^ 16
  paramFmt : index.paramFmt < 2 ^ 16
  paramLen : index.paramLen < 2 ^ 32
  paramMax : index.paramMax < 2 ^ 32
  dataOff : index.dataOff < 2 ^ 32

lemma DefTable.length_bytes (index : DefTable) : index.bytes.length = defTableSize := length_record _

lemma DefTable.ofBytes_bytes {index : DefTable} (fits : index.Fits) : DefTable.ofBytes index.bytes = index := by
  obtain ⟨keyOff, paramFmt, paramLen, paramMax, dataOff⟩ := index
  rw [ofBytes, bytes]
  congr 1
  · exact decodeAt_first fits.keyOff _
  · rw [decodeAt_later, decodeAt_first fits.paramFmt]
  · rw [decodeAt_later, decodeAt_later, decodeAt_first fits.paramLen]
  · rw [decodeAt_later, decodeAt_later, decodeAt_later, decodeAt_first fits.paramMax]
  · rw [decodeAt_later, decodeAt_later, decodeAt_later, decodeAt_later, decodeAt_first fits.dataOff]

lemma indicesOf_flatMap {indices : List DefTable} (fits : ∀ index ∈ indices, index.Fits) :
    indicesOf indices.length (indices.flatMap DefTable.bytes) = indices := by
  induction indices with
  | nil => rfl
  | cons index rest ih =>
    obtain ⟨first, later⟩ := forall_mem_cons.mp fits
    rw [length_cons, flatMap_cons, indicesOf, take_left' index.length_bytes,
      drop_left' index.length_bytes, DefTable.ofBytes_bytes first, ih later]

lemma length_flatMap_bytes (indices : List DefTable) :
    (indices.flatMap DefTable.bytes).length = defTableSize * indices.length := by
  rw [length_flatMap, map_congr_left fun index _ => index.length_bytes, map_const', sum_replicate,
    smul_eq_mul, mul_comm]

def keyTable (entries : List (Bytes × Entry)) : Bytes := entries.flatMap fun entry => entry.1 ++ [0]

def Entry.stored : Entry -> Nat
  | .text format _ value _ => value.length + format.terminator
  | .integer _ => 4

def Entry.data : Entry -> Bytes
  | .text _ maxSize value _ => value ++ List.replicate (maxSize.toNat - value.length) 0
  | .integer value => encode 4 value.toNat

def dataTable (entries : List (Bytes × Entry)) : Bytes := entries.flatMap fun entry => entry.2.data

def laidOut (keyOff dataOff : Nat) : List (Bytes × Entry) -> List DefTable
  | [] => []
  | (key, entry) :: rest =>
    { keyOff, paramFmt := entry.type, paramLen := entry.stored, paramMax := entry.max true, dataOff } ::
      laidOut (keyOff + (key.length + 1)) (dataOff + entry.max true) rest

lemma length_laidOut (keyOff dataOff : Nat) (entries : List (Bytes × Entry)) :
    (laidOut keyOff dataOff entries).length = entries.length := by
  induction entries generalizing keyOff dataOff with
  | nil => rfl
  | cons entry rest ih => rw [laidOut, length_cons, ih, length_cons]

variable {entry : Entry}

lemma Entry.stored_le (valid : entry.isValid = true) : entry.stored ≤ entry.max true := by
  cases entry with
  | integer value => exact le_refl 4
  | text format maxSize value room =>
    have fits : value.length ≤ maxSize.toNat - format.terminator := by simpa [isValid, max] using valid
    rw [stored, max, if_pos rfl, Nat.sub_zero]
    omega

lemma Entry.max_pos (entry : Entry) : 0 < entry.max true := by
  cases entry with
  | integer value => exact Nat.succ_pos 3
  | text format maxSize value room => exact lt_of_le_of_lt (Nat.zero_le _) room

lemma Entry.max_lt (entry : Entry) : entry.max true < 2 ^ 32 := by
  cases entry with
  | integer value =>
    rw [max]
    decide
  | text format maxSize value room => exact maxSize.toNat_lt

lemma Entry.type_lt (entry : Entry) : entry.type < 2 ^ 16 := by
  rcases entry with ⟨_ | _, _, _, _⟩ | _ <;> simp [type, Text.code, integerCode]

lemma Entry.length_data (valid : entry.isValid = true) : entry.data.length = entry.max true := by
  cases entry with
  | integer value => exact length_encode 4 _
  | text format maxSize value room =>
    have fits := stored_le valid
    rw [stored, max, if_pos rfl, Nat.sub_zero] at fits
    rw [data, length_append, length_replicate, max, if_pos rfl, Nat.sub_zero]
    omega

lemma narrow_of_lt {n : Nat} (small : n < 2 ^ 32) : narrow n = some n := if_pos small

lemma Entry.size_of_valid (valid : entry.isValid = true) : entry.size = some entry.stored := by
  have fits := stored_le valid
  have bound := entry.max_lt
  cases entry with
  | integer value => rfl
  | text format maxSize value room =>
    rw [stored, max, if_pos rfl, Nat.sub_zero] at fits
    rw [max, if_pos rfl, Nat.sub_zero] at bound
    rw [size, narrow_of_lt (fits.trans_lt bound), Option.map_some, min_eq_right fits, stored]

section Cons

variable (key : Bytes) (entry : Entry) (rest : List (Bytes × Entry))

lemma keyTable_cons : keyTable ((key, entry) :: rest) = key ++ 0 :: keyTable rest := by
  rw [keyTable, flatMap_cons, append_assoc]
  rfl

lemma dataTable_cons : dataTable ((key, entry) :: rest) = entry.data ++ dataTable rest := rfl

lemma length_keyTable_cons :
    (keyTable ((key, entry) :: rest)).length = key.length + 1 + (keyTable rest).length := by
  rw [keyTable_cons, length_append, length_cons]
  omega

lemma length_dataTable_cons (valid : entry.isValid = true) :
    (dataTable ((key, entry) :: rest)).length = entry.max true + (dataTable rest).length := by
  rw [dataTable_cons, length_append, Entry.length_data valid]

end Cons

abbrev Valid (entries : List (Bytes × Entry)) : Prop := ∀ entry ∈ entries, entry.2.isValid = true

variable {entries : List (Bytes × Entry)}

lemma indicesFrom_eq {keyOff dataOff : Nat} (valid : Valid entries)
    (keysFit : keyOff + (keyTable entries).length < 2 ^ 32) (dataFits : dataOff + (dataTable entries).length < 2 ^ 32) :
    indicesFrom keyOff dataOff entries =
      some (laidOut keyOff dataOff entries, keyOff + (keyTable entries).length) := by
  induction entries generalizing keyOff dataOff with
  | nil => rfl
  | cons entry rest ih =>
    obtain ⟨key, entry⟩ := entry
    obtain ⟨first, later⟩ := forall_mem_cons.mp valid
    rw [length_keyTable_cons] at keysFit
    rw [length_dataTable_cons key entry rest first] at dataFits
    have keySmall : narrow keyOff = some keyOff := narrow_of_lt (by omega)
    have dataSmall : narrow dataOff = some dataOff := narrow_of_lt (by omega)
    have nameSmall : narrow (key.length + 1) = some (key.length + 1) := narrow_of_lt (by omega)
    have further :
        indicesFrom (keyOff + (key.length + 1)) (dataOff + entry.max true) rest =
          some (laidOut (keyOff + (key.length + 1)) (dataOff + entry.max true) rest,
            keyOff + (key.length + 1) + (keyTable rest).length) := ih later (by omega) (by omega)
    simp only [indicesFrom, keySmall, Entry.size_of_valid first, dataSmall, nameSmall, further, Option.bind_eq_bind,
      Option.bind_some, laidOut, length_keyTable_cons, add_assoc]
    rfl

lemma laidOut_fits {keyOff dataOff : Nat} (valid : Valid entries)
    (keysFit : keyOff + (keyTable entries).length < 2 ^ 16) (dataFits : dataOff + (dataTable entries).length < 2 ^ 32) :
    ∀ index ∈ laidOut keyOff dataOff entries, index.Fits := by
  induction entries generalizing keyOff dataOff with
  | nil => simp [laidOut]
  | cons entry rest ih =>
    obtain ⟨key, entry⟩ := entry
    obtain ⟨first, later⟩ := forall_mem_cons.mp valid
    rw [length_keyTable_cons] at keysFit
    rw [length_dataTable_cons key entry rest first] at dataFits
    refine forall_mem_cons.mpr ⟨?_, ih later (by omega) (by omega)⟩
    exact {
      keyOff := by dsimp only; omega
      paramFmt := entry.type_lt
      paramLen := (Entry.stored_le first).trans_lt entry.max_lt
      paramMax := entry.max_lt
      dataOff := by dsimp only; omega }

variable (psf : Registry)

def offKeyTable : Nat := headerSize + defTableSize * psf.entries.length

def offDataTable : Nat := offKeyTable psf + Align.up 64 (keyTable psf.entries).length 4

def headerOf : Header where
  magic := magic
  version := version
  offKeyTable := offKeyTable psf
  offDataTable := offDataTable psf
  entriesNum := psf.entries.length

def keySection : Bytes :=
  keyTable psf.entries ++
    List.replicate (Align.up 64 (keyTable psf.entries).length 4 - (keyTable psf.entries).length) 0

def indexSection : Bytes := (laidOut 0 0 psf.entries).flatMap DefTable.bytes

def layout : Bytes :=
  (headerOf psf).bytes ++ (indexSection psf ++ (keySection psf ++ dataTable psf.entries))

lemma length_indexSection (psf : Registry) :
    (indexSection psf).length = defTableSize * psf.entries.length := by
  rw [indexSection, length_flatMap_bytes, length_laidOut]

variable {psf : Registry}

variable (keysFit : (keyTable psf.entries).length < 2 ^ 16)

include keysFit

lemma keyTable_le_up :
    (keyTable psf.entries).length ≤ Align.up 64 (keyTable psf.entries).length 4 := by
  have small : (keyTable psf.entries).length + (2 ^ 2 - 1) < 2 ^ 64 := by omega
  exact (Align.up_spec small (by decide)).1

lemma length_keySection :
    (keySection psf).length = offDataTable psf - offKeyTable psf := by
  have up := keyTable_le_up keysFit
  rw [keySection, length_append, length_replicate, offDataTable]
  omega

omit keysFit in
lemma length_before_keys (psf : Registry) :
    ((headerOf psf).bytes ++ indexSection psf).length = offKeyTable psf := by
  rw [length_append, Header.length_bytes, length_indexSection, offKeyTable]

lemma length_before_data :
    ((headerOf psf).bytes ++ indexSection psf ++ keySection psf).length = offDataTable psf := by
  have above : offKeyTable psf ≤ offDataTable psf := Nat.le_add_right _ _
  rw [length_append, length_before_keys, length_keySection keysFit]
  omega

omit keysFit in
lemma layout_eq_keys (psf : Registry) :
    layout psf = (headerOf psf).bytes ++ indexSection psf ++ (keySection psf ++ dataTable psf.entries) := by
  rw [layout, append_assoc]

omit keysFit in
lemma layout_eq_data (psf : Registry) :
    layout psf = (headerOf psf).bytes ++ indexSection psf ++ keySection psf ++ dataTable psf.entries := by
  rw [layout_eq_keys, append_assoc _ (keySection psf)]

lemma length_layout :
    (layout psf).length = offDataTable psf + (dataTable psf.entries).length := by
  rw [layout_eq_data, length_append, length_before_data keysFit]

omit keysFit

lemma writeKey_atEnd (obj : Bytes) (entry : Bytes × Entry) :
    writeKey (Stream.atEnd obj) entry = Stream.atEnd (obj ++ (entry.1 ++ [0])) := by
  rw [writeKey, Stream.write_atEnd, Stream.write_atEnd, append_assoc]

lemma writeData_atEnd {entry : Bytes × Entry} (valid : entry.2.isValid = true) (obj : Bytes) :
    writeData (Stream.atEnd obj) entry = Stream.atEnd (obj ++ entry.2.data) := by
  obtain ⟨key, ⟨format, maxSize, value, room⟩ | value⟩ := entry
  · simp only [writeData, valid, if_true, Stream.write_atEnd, Stream.seekCur_trunc_atEnd, append_assoc, Entry.data,
      Entry.max, Nat.sub_zero]
  · exact Stream.write_atEnd obj _

lemma foldl_writeData (valid : Valid entries) (obj : Bytes) :
    entries.foldl writeData (Stream.atEnd obj) = Stream.atEnd (obj ++ dataTable entries) := by
  induction entries generalizing obj with
  | nil => simp [dataTable]
  | cons entry rest ih =>
    obtain ⟨first, later⟩ := forall_mem_cons.mp valid
    rw [foldl_cons, writeData_atEnd first, ih later, dataTable_cons, append_assoc]

lemma writeObject_eq (valid : Valid psf.entries) (keysFit : (keyTable psf.entries).length < 2 ^ 16) :
    writeObject psf (headerOf psf) (laidOut 0 0 psf.entries) [] = layout psf := by
  have start : Stream.mk [] 0 = Stream.atEnd [] := rfl
  have keys (obj : Bytes) : psf.entries.foldl writeKey (Stream.atEnd obj) = Stream.atEnd (obj ++ keyTable psf.entries) :=
    Stream.foldl_atEnd writeKey_atEnd obj psf.entries
  have written : ((headerOf psf).bytes ++ indexSection psf ++ keyTable psf.entries).length =
      offKeyTable psf + (keyTable psf.entries).length := by
    rw [length_append, length_before_keys]
  have before : ((headerOf psf).bytes ++ indexSection psf ++ keyTable psf.entries).length ≤ offDataTable psf :=
    written.le.trans (Nat.add_le_add_left (keyTable_le_up keysFit) _)
  have padding : offDataTable psf - (offKeyTable psf + (keyTable psf.entries).length) =
      Align.up 64 (keyTable psf.entries).length 4 - (keyTable psf.entries).length := by
    rw [offDataTable, Nat.add_sub_add_left]
  have padded := Stream.seek_trunc_atEnd before
  rw [written, padding, append_assoc _ (keyTable psf.entries), ← keySection] at padded
  rw [writeObject, start, Stream.write_atEnd, nil_append, Stream.write_atEnd, ← indexSection, keys]
  rw [show (headerOf psf).offDataTable = offDataTable psf from rfl, padded, foldl_writeData valid, layout_eq_data]
  rfl

lemma saveObject_eq (valid : Valid psf.entries) (keysFit : (keyTable psf.entries).length < 2 ^ 16)
    (fits : (layout psf).length < 2 ^ 32) :
    saveObject psf [] = some (layout psf) := by
  rw [length_layout keysFit] at fits
  have above : offKeyTable psf ≤ offDataTable psf := Nat.le_add_right _ _
  have count : psf.entries.length ≤ offKeyTable psf := by
    rw [offKeyTable, headerSize, defTableSize]
    omega
  have indices : indicesFrom 0 0 psf.entries = some (laidOut 0 0 psf.entries, 0 + (keyTable psf.entries).length) :=
    indicesFrom_eq valid (by omega) (by omega)
  have keys : narrow (headerSize + defTableSize * psf.entries.length) = some (offKeyTable psf) :=
    narrow_of_lt (by rw [← offKeyTable]; omega)
  have data : narrow (offKeyTable psf + Align.up 64 (keyTable psf.entries).length 4) = some (offDataTable psf) :=
    narrow_of_lt (by rw [← offDataTable]; omega)
  have number : narrow psf.entries.length = some psf.entries.length := narrow_of_lt (by omega)
  rw [saveObject, indices, zero_add]
  simp only [Option.bind_eq_bind, Option.bind_some, keys, data, number]
  exact congrArg some (writeObject_eq valid keysFit)

end EmuCore.Psf
