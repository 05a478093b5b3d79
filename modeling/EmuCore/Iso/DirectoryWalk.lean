import EmuCore.Iso.Directory
import EmuCore.Lib.DepthFirst

namespace EmuCore.Iso

open List Option

variable (image : Bytes) (decoding : NameDecoding)

def subdirectories (children : List Metadata) : List Extent :=
  (children.filter fun child => child.isDirectory && !isDots child).map Metadata.extent

def opened (extent : Extent) : Option (List Extent) :=
  (readDirectory image decoding extent).map subdirectories

def Opens : Extent -> Extent -> Prop := DepthFirst.Enters (opened image decoding)

lemma subdirectories_cons (child : Metadata) (rest : List Metadata) :
    subdirectories (child :: rest) =
      (if child.isDirectory && !isDots child then [child.extent] else []) ++ subdirectories rest := by
  unfold subdirectories
  rw [filter_cons]
  split <;> rfl

lemma formChildren_isSome {form : Metadata -> Option (Option Node)} {visit : Extent -> Option Bool}
    (file : ∀ child, child.isDirectory = false -> form child = some (some (.node child [])))
    (directory : ∀ child, child.isDirectory = true -> (form child).map isSome = visit child.extent)
    (children : List Metadata) :
    (formChildren form children).map isSome = DepthFirst.all visit (subdirectories children) := by
  induction children with
  | nil => rfl
  | cons child rest ih =>
    have further (node : Node) :
        ((formChildren form rest).map (Option.map (node :: ·))).map Option.isSome =
          DepthFirst.all visit (subdirectories rest) := by
      rw [← ih, Option.map_map]
      congr 1
      funext result
      exact isSome_map
    rw [formChildren, subdirectories_cons]
    cases dots : isDots child with
    | true => simpa using further (.node child [])
    | false =>
      cases kind : child.isDirectory with
      | false => simpa [file child kind] using further (.node child [])
      | true =>
        have same := directory child kind
        rcases result : form child with _ | _ | node
        · rw [result, map_none] at same
          simp [DepthFirst.all, ← same]
        · rw [result, map_some, isSome_none] at same
          simp [DepthFirst.all, ← same]
        · rw [result, map_some, isSome_some] at same
          simpa [DepthFirst.all, ← same] using further node

lemma path_accepted (parentPath name : Bytes) :
    (!parentPath.isEmpty && !Vfs.isPathInsideDir (parentPath ++ Vfs.slash :: name) parentPath) = false := by
  cases parentPath with
  | nil => rfl
  | cons b path =>
    rw [Vfs.isPathInsideDir_append (cons_ne_nil b path) name]
    rfl

lemma formHierarchy_file (fuel : Nat) {metadata : Metadata} (file : metadata.isDirectory = false)
    (parentPath : Bytes) :
    formHierarchy image decoding fuel metadata parentPath =
      some (if parentPath.isEmpty then none else some (.node metadata [])) := by
  rw [formHierarchy.eq_def, file]
  rfl

lemma formHierarchy_directory (fuel : Nat) {metadata : Metadata} (directory : metadata.isDirectory = true)
    (parentPath : Bytes) :
    (formHierarchy image decoding fuel metadata parentPath).map isSome =
      DepthFirst.visit (opened image decoding) fuel metadata.extent := by
  induction fuel generalizing metadata parentPath with
  | zero =>
    rw [formHierarchy.eq_def, directory]
    simp only [path_accepted]
    rfl
  | succ fuel ih =>
    rw [formHierarchy.eq_def, directory, DepthFirst.visit, opened]
    simp only [path_accepted]
    cases readable : readDirectory image decoding metadata.extent with
    | none => simp
    | some children =>
      let nodePath := parentPath ++ Vfs.slash :: metadata.name
      have files : ∀ child : Metadata, child.isDirectory = false ->
          formHierarchy image decoding fuel child nodePath = some (some (.node child [])) := by
        intro child file
        rw [formHierarchy_file image decoding fuel file]
        simp [nodePath]
      have rest := formChildren_isSome files (fun child kind => ih kind nodePath) children
      rw [map_some, elim_some, ← rest]
      simp [Option.map_map, Function.comp_def, nodePath]

def Recorded (extent : Extent) : Prop := extent.start < 2 ^ 32 ∧ extent.size < 2 ^ 32

lemma recorded_finite : {extent | Recorded extent}.Finite := by
  have pairs : ((Set.Iio (2 ^ 32 : Nat)) ×ˢ (Set.Iio (2 ^ 32 : Nat))).Finite :=
    (Set.finite_Iio _).prod (Set.finite_Iio _)
  refine (pairs.image fun pair => Extent.mk pair.1 pair.2).subset ?_
  rintro ⟨start, size⟩ bounds
  exact ⟨(start, size), bounds, rfl⟩

variable {image decoding}

lemma add_recorded {listing : Listing} {entry : Metadata} (known : ∀ child ∈ listing.children, Recorded child.extent)
    (recorded : Recorded entry.extent) : ∀ child ∈ (listing.add entry).children, Recorded child.extent := by
  intro child member
  unfold Listing.add at member
  dsimp only at member
  split at member
  next index _ =>
    obtain ⟨place, inside, rfl⟩ := mem_iff_getElem.mp member
    rw [getElem_modify]
    have old := known _ (getElem_mem (by simpa using inside))
    split
    next => rwa [Metadata.extent_addExtent]
    next => exact old
  next =>
    rcases mem_append.mp member with old | new
    · exact known child old
    · rwa [mem_singleton.mp new]

lemma readEntries_recorded {endPos pos : Nat} {listing : Listing} {children : List Metadata}
    (known : ∀ child ∈ listing.children, Recorded child.extent)
    (done : readEntries image decoding endPos pos listing = some children) :
    ∀ child ∈ children, Recorded child.extent := by
  fun_induction readEntries image decoding endPos pos listing with
  | case1 => cases done
  | case2 _ _ _ _ ih => exact ih known done
  | case3 => cases done
  | case4 pos listing _ metadata length found _ ih =>
    obtain ⟨-, header, name, rfl⟩ := readDirectoryEntry_entry found
    exact ih (add_recorded known ⟨retrieveEndianInt_lt header 1, retrieveEndianInt_lt header 9⟩) done
  | case5 =>
    cases done
    exact known

lemma opened_recorded {extent : Extent} {next : List Extent} (readable : opened image decoding extent = some next) :
    ∀ child ∈ next, Recorded child := by
  obtain ⟨children, listed, rfl⟩ := map_eq_some_iff.mp readable
  intro extent member
  obtain ⟨child, among, rfl⟩ := List.mem_map.mp member
  unfold readDirectory at listed
  dsimp only at listed
  split at listed
  next => cases listed
  next => exact readEntries_recorded (by simp) listed child (mem_filter.mp among).1

lemma opens_recorded {outer inner : Extent} (opens : Opens image decoding outer inner) : Recorded inner := by
  obtain ⟨before, after, readable, -⟩ := opens
  exact opened_recorded readable inner (by simp)

lemma reached_finite (root : Extent) :
    {extent | Relation.ReflTransGen (Opens image decoding) root extent}.Finite := by
  refine (recorded_finite.insert root).subset ?_
  intro extent path
  rcases Relation.ReflTransGen.cases_tail path with same | ⟨_, -, last⟩
  · exact .inl same
  · exact .inr (opens_recorded last)

-- A directory of one record, whose extent is the directory itself, under the name `A`.
def selfContaining : Bytes :=
  [34, 0, 0, 0, 0, 0, 0, 0, 0, 0, 34, 0, 0, 0, 0, 0, 0, 34, 126, 11, 15, 0, 0, 0, 0, 2, 0, 0, 1, 0, 0, 1, 1, 0x41]

def plainNames : NameDecoding where
  namesInUcs2 := false
  utf16ToUtf8 := fun _ => []

def selfRoot : Metadata where
  name := Vfs.current
  time := 0
  isDirectory := true
  hasMultipleExtents := false
  extents := [⟨0, 34⟩]
  nonempty := by simp

end EmuCore.Iso
