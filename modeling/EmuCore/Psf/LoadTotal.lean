import EmuCore.Psf.Registry

namespace EmuCore.Psf

open EmuCore.Util List Except Option

variable {α : Type} {err : Error} {r : Except Error α}

lemma check_bind {cond : Bool} {next : Unit -> Except Error α} (other : r ≠ .error err) :
    (check cond err >>= next) = r ↔ cond = true ∧ next () = r := by
  cases cond with
  | true => exact (and_iff_right rfl).symm
  | false => exact ⟨fun failed => absurd failed.symm other, fun absurd => by cases absurd.1⟩

lemma got_bind {β : Type} {value : Option β} {next : β -> Except Error α} (other : r ≠ .error err) :
    (got value err >>= next) = r ↔ ∃ a, value = some a ∧ next a = r := by
  cases value with
  | some a => exact ⟨fun done => ⟨a, rfl, done⟩, fun ⟨_, rfl, done⟩ => done⟩
  | none => exact ⟨fun failed => absurd failed.symm other, fun ⟨_, absurd, _⟩ => by cases absurd⟩

variable {stream keys table : Bytes} {header : Header} {sfo : Registry} {index : DefTable}

structure DefTable.Passes (stream : Bytes) (header : Header) (keys : Bytes) (sfo : Registry) (index : DefTable) : Prop where
  key : index.keyOff < header.offDataTable - header.offKeyTable
  fresh : sfo.find? (untilNul (keys.drop index.keyOff)) = none
  fits : index.paramLen ≤ index.paramMax
  placed : index.dataOff < stream.length - header.offDataTable
  inside : index.paramMax < stream.length - index.dataOff

/-- What the constructor of an entry does not take: a string without room for its terminator, an array without room. -/
def DefTable.Refused (index : DefTable) : Prop :=
  ∃ format, Text.ofCode index.paramFmt = some format ∧ index.paramMax ≤ format.terminator

lemma loadEntry_iff {r : Except Error Registry} (other : r ≠ .error .corrupt) :
    loadEntry stream header keys sfo index = r ↔ index.Passes stream header keys sfo ∧
      ((loadData stream ((header.offDataTable + index.dataOff) % 2 ^ 32) index).map fun entry =>
        entry.elim sfo (sfo.insert (untilNul (keys.drop index.keyOff)))) = r := by
  rw [loadEntry]
  simp only [check_bind other, decide_eq_true_eq, isNone_iff_eq_none]
  exact ⟨fun ⟨a, b, c, d, e, done⟩ => ⟨⟨a, b, c, d, e⟩, done⟩, fun ⟨⟨a, b, c, d, e⟩, done⟩ => ⟨a, b, c, d, e, done⟩⟩

lemma loadData_fatal {pos : Nat} (small : index.paramMax < 2 ^ 32) (fits : index.paramLen ≤ index.paramMax)
    (inside : pos < stream.length) : loadData stream pos index = .error .fatal ↔ index.Refused := by
  have max : (UInt32.ofNat index.paramMax).toNat = index.paramMax := UInt32.toNat_ofNat_of_lt small
  rw [loadData, DefTable.Refused]
  split
  next integer =>
    have unknown : Text.ofCode index.paramFmt = none := by rw [integer.1]; rfl
    simp [got_bind, unknown, pure, Except.pure]
  cases Text.ofCode index.paramFmt with
  | none => simp
  | some format =>
    have short : format.terminator ≤ 1 := by cases format <;> decide
    simp only [got_bind (show Except.error Error.fatal ≠ .error .corrupt by simp), loadText, max, Option.some.injEq, exists_eq_left']
    constructor
    · rintro ⟨value, _, done⟩
      split at done
      next => cases done
      next full => exact Nat.le_of_not_lt full
    · intro full
      have here : ((stream.drop pos).take index.paramLen).length = index.paramLen := by
        rw [length_take, length_drop]
        omega
      refine ⟨_, if_pos here, ?_⟩
      rw [dif_neg (Nat.not_lt.mpr full)]
      rfl

lemma loadEntry_fatal (small : index.paramMax < 2 ^ 32) :
    loadEntry stream header keys sfo index = .error .fatal ↔ index.Passes stream header keys sfo ∧ index.Refused := by
  rw [loadEntry_iff (by simp)]
  refine and_congr_right fun passes => ?_
  have place : (header.offDataTable + index.dataOff) % 2 ^ 32 < stream.length := by
    have := Nat.mod_le (header.offDataTable + index.dataOff) (2 ^ 32)
    have := passes.placed
    omega
  rw [← loadData_fatal small passes.fits place]
  cases loadData stream ((header.offDataTable + index.dataOff) % 2 ^ 32) index with
  | error e | ok entry => simp [Except.map]

def Refuses (stream : Bytes) (header : Header) (keys : Bytes) : Registry -> List DefTable -> Prop
  | _, [] => False
  | sfo, index :: rest => index.Passes stream header keys sfo ∧ index.Refused ∨
      ∃ next, loadEntry stream header keys sfo index = .ok next ∧ Refuses stream header keys next rest

lemma foldlM_fatal {indices : List DefTable} (small : ∀ index ∈ indices, index.paramMax < 2 ^ 32) :
    indices.foldlM (loadEntry stream header keys) sfo = .error .fatal ↔ Refuses stream header keys sfo indices := by
  induction indices generalizing sfo with
  | nil => simp [Refuses, pure, Except.pure]
  | cons index rest ih =>
    obtain ⟨first, later⟩ := forall_mem_cons.mp small
    rw [foldlM_cons, Refuses, ← loadEntry_fatal first]
    cases loadEntry stream header keys sfo index with
    | error e => simp [bind, Except.bind]
    | ok next => simpa [bind, Except.bind] using ih later

lemma decode_lt (bytes : Bytes) : LittleEndian.decode bytes < 256 ^ bytes.length := by
  induction bytes with
  | nil => simp [LittleEndian.decode]
  | cons byte rest ih =>
    have small := byte.toNat_lt
    rw [LittleEndian.decode, length_cons, pow_succ]
    omega

lemma paramMax_lt {count : Nat} (member : index ∈ indicesOf count table) : index.paramMax < 2 ^ 32 := by
  induction count generalizing table with
  | zero => cases member
  | succ count ih =>
    rcases mem_cons.mp member with rfl | later
    · have width : (((table.take defTableSize).drop 8).take 4).length ≤ 4 := length_take_le _ _
      exact (decode_lt _).trans_le (Nat.pow_le_pow_right (by decide) width)
    · exact ih later

structure Opens (stream : Bytes) (header : Header) (indices : List DefTable) (keys : Bytes) : Prop where
  head : (read stream 0 headerSize).map Header.ofBytes = some header
  magic : header.magic = magic
  version : header.version = version
  behind : headerSize ≤ header.offKeyTable
  ordered : header.offKeyTable ≤ header.offDataTable
  inside : header.offDataTable ≤ stream.length
  indices : (read stream headerSize (defTableSize * header.entriesNum)).map (indicesOf header.entriesNum) = some indices
  keys : read stream header.offKeyTable (header.offDataTable - header.offKeyTable) = some keys

lemma load_iff {r : Except Error Registry} (other : ∀ err, err ≠ .fatal -> r ≠ .error err) :
    load (some stream) = r ↔ ∃ header indices keys, Opens stream header indices keys ∧
      ((indices.foldlM (loadEntry stream header keys) ∅) >>= fun sfo =>
        check (validCats.contains (getString sfo category [])) .corrupt >>= fun _ => .ok sfo) = r := by
  simp only [load, got_bind (other .stream (by decide)), got_bind (other .notPsf (by decide)),
    got_bind (other .corrupt (by decide)), check_bind (other .notPsf (by decide)),
    check_bind (other .corrupt (by decide)), decide_eq_true_eq, some.injEq, exists_eq_left']
  constructor
  · rintro ⟨bytes, head, magic, version, behind, ordered, inside, table, found, keys, keysFound, done⟩
    exact ⟨_, _, keys, ⟨by rw [head]; rfl, magic, version, behind, ordered, inside, by rw [found]; rfl, keysFound⟩, done⟩
  rintro ⟨header, indices, keys, ⟨head, magic, version, behind, ordered, inside, found, keysFound⟩, done⟩
  obtain ⟨bytes, first, rfl⟩ := map_eq_some_iff.mp head
  obtain ⟨table, listed, rfl⟩ := map_eq_some_iff.mp found
  exact ⟨bytes, first, magic, version, behind, ordered, inside, table, listed, keys, keysFound, done⟩

lemma foldlM_keys {indices : List DefTable} {loaded : Registry} (known : ∀ entry ∈ sfo.entries, entry.1 <:+: keys)
    (done : indices.foldlM (loadEntry stream header keys) sfo = .ok loaded) : ∀ entry ∈ loaded.entries, entry.1 <:+: keys := by
  induction indices generalizing sfo with
  | nil =>
    cases done
    exact known
  | cons index rest ih =>
    rw [foldlM_cons] at done
    cases entered : loadEntry stream header keys sfo index with
    | error e =>
      rw [entered] at done
      cases done
    | ok next =>
      rw [entered] at done
      refine ih ?_ done
      obtain ⟨_, made⟩ := (loadEntry_iff (by simp)).mp entered
      cases data : loadData stream ((header.offDataTable + index.dataOff) % 2 ^ 32) index with
      | error e =>
        rw [data] at made
        cases made
      | ok found =>
        rw [data] at made
        cases made
        cases found with
        | none => exact known
        | some entry =>
          intro item member
          rcases SortedMap.insertEntry_mem member with rfl | old
          · exact ( takeWhile_prefix _).isInfix.trans (drop_suffix _ _).isInfix
          · exact known item old

def hostileFile : Bytes :=
  [0x00, 0x50, 0x53, 0x46, 1, 1, 0, 0, 36, 0, 0, 0, 40, 0, 0, 0, 1, 0, 0, 0] ++
  [0, 0, 0x04, 0x02, 1, 0, 0, 0, 1, 0, 0, 0, 0, 0, 0, 0] ++ [0x41, 0, 0, 0] ++ [0]

end EmuCore.Psf
