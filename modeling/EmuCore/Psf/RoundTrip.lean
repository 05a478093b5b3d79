import EmuCore.Psf.Layout
import EmuCore.Psf.LoadTotal

namespace EmuCore.Psf

open EmuCore.Util LittleEndian List Nat

@[simp] lemma got_some {α : Type} (value : α) (err : Error) : got (some value) err = .ok value := rfl

def NulFree : Bytes × Entry -> Prop
  | (key, .text .string _ value _) => 0 ∉ key ∧ 0 ∉ value
  | (key, _) => 0 ∉ key

variable {entry : Entry}

lemma NulFree.key {key : Bytes} (clean : NulFree (key, entry)) : 0 ∉ key := by
  rcases entry with ⟨_ | _, _, _, _⟩ | _
  · exact clean
  · exact clean.1
  · exact clean

lemma untilNul_append {bytes : Bytes} (clean : 0 ∉ bytes) (rest : Bytes) :
    untilNul (bytes ++ 0 :: rest) = bytes := by
  have all : ∀ b ∈ bytes, decide (b ≠ 0) = true := fun b member => decide_eq_true fun zero => clean (zero ▸ member)
  rw [untilNul, takeWhile_append_of_pos all]
  simp

lemma read_text {format : Text} {maxSize : UInt32} {value : Bytes} {room : format.terminator < maxSize.toNat}
    (valid : (Entry.text format maxSize value room).isValid = true) (before after : Bytes) :
    read (before ++ ((Entry.text format maxSize value room).data ++ after)) before.length
      (Entry.text format maxSize value room).stored = some (value ++ replicate format.terminator 0) := by
  have fits := Entry.stored_le valid
  simp only [Entry.stored, Entry.max, if_true, Nat.sub_zero] at fits
  have split : maxSize.toNat - value.length =
      format.terminator + (maxSize.toNat - value.length - format.terminator) := by omega
  rw [Entry.data, split, replicate_add, ← append_assoc value, append_assoc _ _ after]
  exact read_append rfl (by rw [length_append, length_replicate, Entry.stored])

lemma loadText_eq {format : Text} {maxSize : UInt32} (room : format.terminator < maxSize.toNat) (value : Bytes) :
    loadText format maxSize.toNat value = .ok (.text format maxSize value room) := by
  have same : UInt32.ofNat maxSize.toNat = maxSize := UInt32.ofNat_toNat
  simp only [loadText, same, room, dite_true]

lemma loadData_eq {key : Bytes} (valid : entry.isValid = true) (clean : NulFree (key, entry)) {index : DefTable}
    (format : index.paramFmt = entry.type) (length : index.paramLen = entry.stored)
    (most : index.paramMax = entry.max true) (before after : Bytes) :
    loadData (before ++ (entry.data ++ after)) before.length index = .ok (some entry) := by
  cases entry with
  | integer value =>
    have found : read (before ++ ((Entry.integer value).data ++ after)) before.length 4 =
        some (encode 4 value.toNat) := read_append rfl (length_encode 4 _)
    have same : UInt32.ofNat (decode (encode 4 value.toNat)) = value := by
      rw [decode_encode_of_lt value.toNat_lt, UInt32.ofNat_toNat]
    rw [loadData, if_pos ⟨format, most, length⟩, found]
    simp only [got_some, bind, Except.bind, same]
    rfl
  | text kind maxSize value room =>
    have found := read_text valid before after
    have stored : index.paramMax = maxSize.toNat := by rw [most, Entry.max, if_pos rfl, Nat.sub_zero]
    rw [loadData, length, found, format, stored]
    cases kind with
    | array =>
      simp [Entry.type, Text.code, integerCode, Text.ofCode, Text.terminator, bind, Except.bind, loadText_eq room, pure,
        Except.pure]
    | string =>
      have string : untilNul (value ++ [0]) = value := untilNul_append clean.2 []
      simp [Entry.type, Text.code, integerCode, Text.ofCode, Text.terminator, bind, Except.bind, loadText_eq room, pure,
        Except.pure, string]

lemma keyTable_append (done rest : List (Bytes × Entry)) :
    keyTable (done ++ rest) = keyTable done ++ keyTable rest := flatMap_append

lemma dataTable_append (done rest : List (Bytes × Entry)) :
    dataTable (done ++ rest) = dataTable done ++ dataTable rest := flatMap_append

variable {done rest : List (Bytes × Entry)}

lemma keys_before {psf : Registry} {key : Bytes} (whole : psf.entries = done ++ (key, entry) :: rest) :
    ∀ other ∈ done, other.1 < key := by
  intro other old
  have sorted := psf.sorted
  rw [whole, pairwise_append] at sorted
  exact sorted.2.2 other old _ mem_cons_self

structure Savable (psf : Registry) : Prop where
  valid : Valid psf.entries
  clean : ∀ entry ∈ psf.entries, NulFree entry
  keysFit : (keyTable psf.entries).length < 2 ^ 16
  fits : (layout psf).length < 2 ^ 32

variable {psf : Registry} (savable : Savable psf)

include savable

lemma loadEntry_eq {key : Bytes} (whole : psf.entries = done ++ (key, entry) :: rest) {sfo : Registry}
    (loaded : sfo.entries = done) {index : DefTable} (keyOff : index.keyOff = (keyTable done).length)
    (format : index.paramFmt = entry.type) (length : index.paramLen = entry.stored)
    (most : index.paramMax = entry.max true) (dataOff : index.dataOff = (dataTable done).length) :
    loadEntry (layout psf) (headerOf psf) (keySection psf) sfo index = .ok (sfo.insert key entry) := by
  have member : (key, entry) ∈ psf.entries := by rw [whole]; simp
  have valid : entry.isValid = true := savable.valid _ member
  have clean := savable.clean _ member
  have size := length_layout savable.keysFit
  have small := savable.fits
  have keyBytes : keyTable psf.entries = keyTable done ++ (key ++ 0 :: keyTable rest) := by
    rw [whole, keyTable_append, keyTable_cons]
  have dataBytes : dataTable psf.entries = dataTable done ++ (entry.data ++ dataTable rest) := by
    rw [whole, dataTable_append, dataTable_cons]
  have keyLength := congrArg List.length keyBytes
  have dataLength := congrArg List.length dataBytes
  simp only [length_append, length_cons, Entry.length_data valid] at keyLength dataLength
  have name : untilNul ((keySection psf).drop index.keyOff) = key := by
    rw [keySection, keyBytes, append_assoc, keyOff, drop_left, append_assoc, cons_append,
      untilNul_append clean.key]
  have new : sfo.find? key = none := SortedMap.lookup_after fun other old => keys_before whole other (loaded ▸ old)
  have place : ((headerOf psf).bytes ++ indexSection psf ++ keySection psf ++ dataTable done).length =
      ((headerOf psf).offDataTable + index.dataOff) % 2 ^ 32 := by
    rw [length_append, length_before_data savable.keysFit, dataOff]
    refine (mod_eq_of_lt ?_).symm
    omega
  have content : layout psf =
      (headerOf psf).bytes ++ indexSection psf ++ keySection psf ++ dataTable done ++ (entry.data ++ dataTable rest) := by
    rw [layout_eq_data, dataBytes, append_assoc _ (dataTable done)]
  have data := loadData_eq valid clean format length most
    ((headerOf psf).bytes ++ indexSection psf ++ keySection psf ++ dataTable done) (dataTable rest)
  rw [← content, place] at data
  have up := keyTable_le_up savable.keysFit
  have above : (headerOf psf).offDataTable - (headerOf psf).offKeyTable =
      Align.up 64 (keyTable psf.entries).length 4 := Nat.add_sub_cancel_left _ _
  have top : (headerOf psf).offDataTable = offDataTable psf := rfl
  have positive := entry.max_pos
  have base : 0 < offDataTable psf := lt_of_lt_of_le (by decide : 0 < headerSize) (by
    rw [offDataTable, offKeyTable]
    omega)
  have stored := Entry.stored_le valid
  have keyInside : index.keyOff < (headerOf psf).offDataTable - (headerOf psf).offKeyTable := by
    rw [above, keyOff]
    omega
  have lengthFits : index.paramLen ≤ index.paramMax := by rw [length, most]; exact stored
  have dataInside : index.dataOff < (layout psf).length - (headerOf psf).offDataTable := by
    rw [size, top, dataOff]
    omega
  have dataFits : index.paramMax < (layout psf).length - index.dataOff := by
    rw [size, most, dataOff]
    omega
  refine (loadEntry_iff (by simp)).mpr ⟨⟨keyInside, by rw [name]; exact new, lengthFits, dataInside, dataFits⟩, ?_⟩
  rw [name, data]
  rfl

lemma foldlM_loadEntry (whole : psf.entries = done ++ rest) {sfo : Registry} (loaded : sfo.entries = done) :
    (laidOut (keyTable done).length (dataTable done).length rest).foldlM
      (loadEntry (layout psf) (headerOf psf) (keySection psf)) sfo = .ok psf := by
  induction rest generalizing done sfo with
  | nil =>
    rw [append_nil] at whole
    obtain ⟨entries, sorted⟩ := sfo
    obtain ⟨all, order⟩ := psf
    subst whole loaded
    rfl
  | cons entry rest ih =>
    obtain ⟨key, entry⟩ := entry
    have valid : entry.isValid = true := savable.valid (key, entry) (by rw [whole]; simp)
    have next : psf.entries = (done ++ [(key, entry)]) ++ rest := by rw [whole, append_assoc]; rfl
    have more : (sfo.insert key entry).entries = done ++ [(key, entry)] := by
      rw [← loaded]
      exact SortedMap.insertEntry_last entry (loaded ▸ keys_before whole)
    have keys : (keyTable (done ++ [(key, entry)])).length = (keyTable done).length + (key.length + 1) := by
      rw [keyTable_append, length_append, length_keyTable_cons]
      rfl
    have data : (dataTable (done ++ [(key, entry)])).length = (dataTable done).length + entry.max true := by
      rw [dataTable_append, length_append, length_dataTable_cons key entry [] valid]
      rfl
    rw [laidOut, foldlM_cons, loadEntry_eq savable whole loaded rfl rfl rfl rfl rfl]
    have further := ih next more
    rw [keys, data] at further
    exact further

lemma headerOf_fits : (headerOf psf).Fits := by
  have size := length_layout savable.keysFit
  have small := savable.fits
  have above : offKeyTable psf ≤ offDataTable psf := le_add_right _ _
  have count : psf.entries.length ≤ offKeyTable psf := by
    rw [offKeyTable, headerSize, defTableSize]
    omega
  exact {
    magic := (by decide : magic < 2 ^ 32)
    version := (by decide : version < 2 ^ 32)
    offKeyTable := by
      change offKeyTable psf < 2 ^ 32
      omega
    offDataTable := by
      change offDataTable psf < 2 ^ 32
      omega
    entriesNum := by
      change psf.entries.length < 2 ^ 32
      omega }

lemma load_layout (known : getString psf category [] ∈ validCats) : load (some (layout psf)) = .ok psf := by
  have size := length_layout savable.keysFit
  have small := savable.fits
  have header : read ([] ++ layout psf) 0 headerSize = some (headerOf psf).bytes :=
    read_append length_nil (Header.length_bytes _)
  rw [nil_append] at header
  have table : read (layout psf) headerSize (defTableSize * (headerOf psf).entriesNum) = some (indexSection psf) :=
    read_append (Header.length_bytes _) (length_indexSection psf)
  have keys : read (layout psf) (headerOf psf).offKeyTable
      ((headerOf psf).offDataTable - (headerOf psf).offKeyTable) = some (keySection psf) := by
    rw [layout_eq_keys]
    exact read_append (length_before_keys psf) (length_keySection savable.keysFit)
  have indices : indicesOf (headerOf psf).entriesNum (indexSection psf) = laidOut 0 0 psf.entries := by
    have short := savable.keysFit
    have fits : ∀ index ∈ laidOut 0 0 psf.entries, index.Fits := laidOut_fits savable.valid (by omega) (by omega)
    have all := indicesOf_flatMap fits
    rw [length_laidOut] at all
    exact all
  have entries : (laidOut 0 0 psf.entries).foldlM (loadEntry (layout psf) (headerOf psf) (keySection psf)) ∅ = .ok psf :=
    foldlM_loadEntry savable (nil_append _).symm rfl
  have afterHeader : headerSize ≤ (headerOf psf).offKeyTable := le_add_right _ _
  have above : offKeyTable psf ≤ offDataTable psf := le_add_right _ _
  have ordered : (headerOf psf).offKeyTable ≤ (headerOf psf).offDataTable := above
  have inside : (headerOf psf).offDataTable ≤ (layout psf).length := by
    rw [size]
    exact le_add_right (offDataTable psf) _
  have parsed : (read (layout psf) 0 headerSize).map Header.ofBytes = some (headerOf psf) := by
    rw [header, Option.map_some, Header.ofBytes_bytes (headerOf_fits savable)]
  refine (load_iff (by simp)).mpr ⟨_, _, _, ⟨parsed, rfl, rfl, afterHeader, ordered, inside,
    by rw [table, Option.map_some, indices], keys⟩, ?_⟩
  rw [entries]
  exact (check_bind (by simp)).mpr ⟨contains_iff_mem.mpr known, rfl⟩

omit savable

def fileSize (psf : Registry) : Nat := offDataTable psf + (psf.entries.map fun entry => entry.2.max true).sum

lemma length_dataTable {entries : List (Bytes × Entry)} (valid : Valid entries) :
    (dataTable entries).length = (entries.map fun entry => entry.2.max true).sum := by
  rw [dataTable, length_flatMap]
  exact congrArg sum (map_congr_left fun entry member => Entry.length_data (valid entry member))

theorem load_save_object (psf : Registry) (known : getString psf category [] ∈ validCats)
    (valid : ∀ entry ∈ psf.entries, entry.2.isValid = true) (clean : ∀ entry ∈ psf.entries, NulFree entry)
    (keysFit : (keyTable psf.entries).length ≤ 65535) (fits : fileSize psf < 2 ^ 32) :
    ∃ file, saveObject psf [] = some file ∧ load (some file) = .ok psf := by
  have keys : (keyTable psf.entries).length < 2 ^ 16 := lt_succ_of_le keysFit
  have size : (layout psf).length < 2 ^ 32 := by rwa [length_layout keys, length_dataTable valid]
  exact ⟨layout psf, saveObject_eq valid keys size, load_layout ⟨valid, clean, keys, size⟩ known⟩

def exampleEntries : List (Bytes × Entry) :=
  [(category, .text .string 4 "SD".toUTF8.toList (by decide)),
    ("COUNT".toUTF8.toList, .integer 7),
    ("DATA".toUTF8.toList, .text .array 3 [] (by decide))]

def exampleRegistry : Registry where
  entries := exampleEntries
  sorted := by decide +kernel

lemma exampleEntries_clean : ∀ entry ∈ exampleEntries, NulFree entry := by
  intro entry member
  rcases mem_cons.mp member with rfl | member
  · exact ⟨by decide +kernel, by decide +kernel⟩
  rcases mem_cons.mp member with rfl | member
  · exact (by decide +kernel : 0 ∉ "COUNT".toUTF8.toList)
  · obtain rfl := mem_singleton.mp member
    exact (by decide +kernel : 0 ∉ "DATA".toUTF8.toList)

theorem load_save_object_example :
    ∃ file, saveObject exampleRegistry [] = some file ∧ load (some file) = .ok exampleRegistry :=
  load_save_object exampleRegistry (by decide +kernel) (by decide +kernel) exampleEntries_clean (by decide +kernel)
    (by decide +kernel)

end EmuCore.Psf
