import EmuCore.Pkg.Install
import EmuCore.Vfs.Components

namespace EmuCore.Pkg

open Vfs List

lemma leavesFuel_eq {fuel : Nat} {rest : Bytes} (enough : rest.length ≤ fuel)
    (inside : leavesFuel fuel rest = false) : hasDots .start rest = false := by
  induction fuel generalizing rest with
  | zero =>
    obtain rfl := length_eq_zero_iff.mp (Nat.le_zero.mp enough)
    rfl
  | succ fuel ih =>
    rw [leavesFuel] at inside
    split at inside
    next empty =>
      rw [empty]
      rfl
    next full =>
      have parts : rest = rest.takeWhile (!isSlash ·) ++ rest.dropWhile (!isSlash ·) :=
        takeWhile_append_dropWhile.symm
      have plain : slash ∉ rest.takeWhile (!isSlash ·) := by
        intro member
        have := mem_takeWhile_imp member
        simp [isSlash] at this
      have first := head?_dropWhile_not (!isSlash ·) rest
      generalize rest.takeWhile (!isSlash ·) = word at parts plain inside
      generalize rest.dropWhile (!isSlash ·) = left at parts first inside
      subst parts
      simp only [Bool.or_eq_false_iff, decide_eq_false_iff_not] at inside
      obtain ⟨⟨one, two⟩, later⟩ := inside
      have own := hasDots_plain plain one two
      cases left with
      | nil => rwa [append_nil]
      | cons b left =>
        obtain rfl : b = slash := by simpa [isSlash] using first
        rw [hasDots_append_slash, own, Bool.false_or]
        rw [length_append, length_cons] at enough
        exact ih (by omega) later

lemma hasDots_of_inside {name : Bytes} (inside : leavesDirectory name = false) : hasDots .start name = false :=
  leavesFuel_eq le_rfl (Bool.or_eq_false_iff.mp inside).2

lemma contentDir_ends (host : Host) (contentType : Nat) :
    (contentDir host contentType).getLast? = some slash := by
  have last : ∀ (first : Bytes) {text : Bytes}, text.getLast? = some slash ->
      (first ++ text).getLast? = some slash := by
    intro first text ends
    rw [getLast?_append, ends]
    rfl
  unfold contentDir
  split <;> exact last _ (by decide +kernel)

lemma names_installPath {host : Host} {pkg : Content} {path : Bytes}
    (chosen : setInstallPath host pkg = some path) :
    path.getLast? = some slash ∧ ∃ below, names path = names (contentDir host pkg.contentType) ++ below ∧
      ∀ name ∈ below, name ≠ current ∧ name ≠ parent := by
  have ends := contentDir_ends host pkg.contentType
  rw [setInstallPath] at chosen
  split at chosen
  · cases chosen
  split at chosen
  · split at chosen
    · cases chosen
    next allowed =>
      cases chosen
      rw [not_or, Bool.not_eq_true] at allowed
      have clean := hasDots_escape (hasDots_of_inside allowed.2)
      refine ⟨by simp, names (escape pkg.installDir false ++ [slash]), ?_, fun name member => ?_⟩
      · rw [append_assoc]
        exact names_append ends _
      · refine mem_names_of_hasDots ?_ member
        rw [hasDots_append_slash, clean]
        rfl
  · cases chosen
    exact ⟨ends, [], (append_nil _).symm, fun _ none => by cases none⟩

lemma stripped_isPrefix (path : Path) : stripped path <+: path := by
  rw [stripped]
  split
  · exact dropLast_prefix path
  · exact prefix_refl path

lemma parentDir_isPrefix (path : Path) : parentDir path <+: path := by
  rw [parentDir]
  split
  · exact stripped_isPrefix path
  · exact ( dropLast_prefix _).trans (stripped_isPrefix path)

lemma createPath_ops (host : Host) (origin : Origin) (fuel : Nat) (ops : List Op) (path : Path) :
    ∀ op ∈ (createPath host origin fuel ops path).2, op ∈ ops ∨ op.origin = origin ∧ op.path <+: path := by
  induction fuel generalizing ops path with
  | zero => exact fun op member => .inl member
  | succ fuel ih =>
    have above : ∀ op ∈ (if (parentDir path).length < path.length && !host.isDir ops (parentDir path) then
        createPath host origin fuel ops (parentDir path) else (true, ops)).2,
        op ∈ ops ∨ op.origin = origin ∧ op.path <+: path := by
      intro op member
      split at member
      · exact (ih ops (parentDir path) op member).imp_right
          fun made => ⟨made.1, made.2.trans (parentDir_isPrefix path)⟩
      · exact .inl member
    intro op member
    rw [createPath] at member
    generalize (if (parentDir path).length < path.length && !host.isDir ops (parentDir path) then
      createPath host origin fuel ops (parentDir path) else (true, ops)) = up at above member
    split at member
    · exact above op member
    split at member
    · rcases mem_append.mp member with before | own
      · exact above op before
      · obtain rfl := mem_singleton.mp own
        exact .inr ⟨rfl, prefix_refl path⟩
    · exact above op member
    · exact above op member

-- No element leads out, and when the path was resolved nothing on the way to its last element is a link.
structure Sane (host : Host) (target : Canonical) : Prop where
  plain : ∀ element ∈ target.path, element ≠ current ∧ element ≠ parent
  linkless : target.resolved = true -> ∀ above, above <+: target.path -> above ≠ target.path ->
    host.isLink above = false

structure SaneDir (host : Host) (target : Canonical) : Prop where
  plain : ∀ element ∈ target.path, element ≠ current ∧ element ≠ parent
  linkless : target.resolved = true -> ∀ above, above <+: target.path -> host.isLink above = false

lemma sane_canonicalize (host : Host) (ops : List Op) (text : Bytes) :
    SaneDir host (canonicalize host ops text) := by
  rw [canonicalize]
  split
  next path found =>
    obtain ⟨plain, linkless⟩ := host.canonical ops text path found
    exact ⟨plain, fun _ => linkless⟩
  refine ⟨fun element member => ?_, fun resolved => by cases resolved⟩
  have special : ∀ special ∈ [root, []], special ≠ current ∧ special ≠ parent := by decide
  rcases mem_append.mp member with normal | ending
  · rcases mem_cons.mp normal with rfl | normal
    · exact special root (by simp)
    · exact (mem_normalize normal).2
  · split at ending
    · obtain rfl := mem_singleton.mp ending
      exact special [] (by simp)
    · cases ending

lemma sane_joined {host : Host} {dir : Canonical} (sane : SaneDir host dir) {file : Bytes}
    (plain : file ≠ current ∧ file ≠ parent) : Sane host ⟨joined dir.path file, dir.resolved⟩ := by
  refine ⟨fun element member => ?_, fun resolved above under other => ?_⟩
  · rcases mem_append.mp member with inside | last
    · exact sane.plain element ((stripped_isPrefix dir.path).subset inside)
    · obtain rfl := mem_singleton.mp last
      exact plain
  · refine sane.linkless resolved above (List.IsPrefix.trans ?_ (stripped_isPrefix dir.path))
    rcases prefix_concat_iff.mp under with same | inside
    · exact absurd same other
    · exact inside

lemma file_plain {path name : Bytes} (ends : path.getLast? = some slash) (clean : hasDots .start name = false) :
    (path ++ name).rtakeWhile (!isSlash ·) ≠ current ∧ (path ++ name).rtakeWhile (!isSlash ·) ≠ parent := by
  obtain ⟨start, rfl⟩ : ∃ start, path = start ++ [slash] := getLast?_eq_some_iff.mp ends
  have last : (start ++ [slash] ++ name).rtakeWhile (!isSlash ·) = name.rtakeWhile (!isSlash ·) := by
    simp only [List.rtakeWhile, reverse_append, reverse_singleton]
    rw [takeWhile_append]
    split
    next all =>
      have whole := takeWhile_prefix (!isSlash ·) |>.eq_of_length all
      rw [singleton_append, takeWhile_cons_of_neg (by simp [isSlash]), append_nil, whole]
    next => rfl
  have clear : hasDots .start (name.rtakeWhile (!isSlash ·)) = false := by
    have parts := rdropWhile_append_rtakeWhile (p := (!isSlash ·)) (l := name)
    by_cases none : name.rdropWhile (!isSlash ·) = []
    · rw [none, nil_append] at parts
      rwa [parts]
    have slashed := rdropWhile_last_not (!isSlash ·) name none
    have init := dropLast_append_getLast none
    rw [Bool.not_eq_true', Bool.not_eq_false] at slashed
    have same : (name.rdropWhile (!isSlash ·)).getLast none = slash := of_decide_eq_true slashed
    rw [same] at init
    rw [← parts, ← init, append_assoc, singleton_append, hasDots_append_slash] at clean
    exact (Bool.or_eq_false_iff.mp clean).2
  rw [last]
  refine ⟨fun same => ?_, fun same => ?_⟩
  · exact Bool.false_ne_true (clear.symm.trans (hasDots_word (.inl same)))
  · exact Bool.false_ne_true (clear.symm.trans (hasDots_word (.inr same)))

lemma sane_locate {host : Host} {fill : Fill} {path name : Bytes} (ends : path.getLast? = some slash)
    (clean : hasDots .start name = false) (dirs : ∀ entry ∈ fill.canonicalDirs, SaneDir host entry.2)
    (folder : Bool) :
    Sane host (locate host fill (path ++ name) folder).1 ∧
      ∀ entry ∈ (locate host fill (path ++ name) folder).2, SaneDir host entry.2 := by
  have single : ∀ text ops, ∀ entry ∈ [(text, canonicalize host ops text)], SaneDir host entry.2 := by
    intro text ops entry member
    obtain rfl := mem_singleton.mp member
    exact sane_canonicalize host ops text
  have added : ∀ text ops, ∀ entry ∈ fill.canonicalDirs ++ [(text, canonicalize host ops text)],
      SaneDir host entry.2 := fun text ops =>
    forall_mem_append.mpr ⟨dirs, single text ops⟩
  have plain := file_plain ends clean
  rw [locate]
  split
  · have sane := sane_canonicalize host fill.ops (path ++ name)
    refine ⟨⟨sane.plain, fun resolved above under _ => sane.linkless resolved above under⟩, ?_⟩
    split
    · exact added _ _
    · exact dirs
  · dsimp only
    split
    next found known =>
      obtain ⟨before, after, parts, -⟩ := lookup_eq_some_iff.mp known
      have sane : SaneDir host found := by
        rw [parts] at dirs
        exact dirs (_, found) (mem_append_right before mem_cons_self)
      exact ⟨sane_joined sane plain, dirs⟩
    next => exact ⟨sane_joined (sane_canonicalize host _ _) plain, added _ _⟩

structure Contained (host : Host) (install : Path) (op : Op) (resolved : Bool) : Prop where
  origin : op.origin = .entry resolved
  inside : install <+: op.path ∨ op.path <+: install
  plain : ∀ element ∈ op.path, element ≠ current ∧ element ≠ parent
  linkless : resolved = true -> ∀ above, above <+: op.path -> above ≠ op.path -> host.isLink above = false

def Allowed (host : Host) (installPath : Bytes) (install : Path) (op : Op) : Prop :=
  op.origin = .install ∧ op.path <+: elements installPath ∨ ∃ resolved, Contained host install op resolved

structure Filled (host : Host) (installPath : Bytes) (install : Path) (fill : Fill) : Prop where
  ops : ∀ op ∈ fill.ops, Allowed host installPath install op
  dirs : ∀ entry ∈ fill.canonicalDirs, SaneDir host entry.2
  entries : ∀ entry ∈ fill.entries, Sane host entry.target ∧ install <+: entry.target.path

section fill

variable {host : Host} {installPath : Bytes} {install : Path} {fill : Fill}

section

variable (filled : Filled host installPath install fill) {target : Canonical} (sane : Sane host target) (inside : install <+: target.path)

include filled sane inside

lemma filled_createFolder :
    Filled host installPath install (createFolder host fill target) := by
  rw [createFolder]
  split
  · exact filled
  refine { filled with ops := fun op member => ?_ }
  rcases createPath_ops host _ _ _ _ op member with before | ⟨origin, under⟩
  · exact filled.ops op before
  refine .inr ⟨target.resolved, origin, prefix_or_prefix_of_prefix inside under, ?_, ?_⟩
  · exact fun element member => sane.plain element (under.subset member)
  intro resolved above higher other
  refine sane.linkless resolved above (higher.trans under) fun same => ?_
  subst same
  exact other (higher.eq_of_length_le under.length_le)

lemma filled_addEntry (type : Nat) :
    Filled host installPath install (addEntry fill target type) := by
  refine { filled with entries := fun entry member => ?_ }
  rcases mem_append.mp member with before | own
  · exact filled.entries entry before
  · obtain rfl := mem_singleton.mp own
    exact ⟨sane, inside⟩

end

lemma filled_fillEntry (ends : installPath.getLast? = some slash) (filled : Filled host installPath install fill)
    (entry : PkgEntry) : Filled host installPath install (fillEntry host installPath install fill entry).1 := by
  rw [fillEntry]
  split
  · exact { filled with }
  next nameBuf known =>
    split
    · exact { filled with }
    next allowed =>
      have clean := hasDots_escape (hasDots_of_inside (Bool.eq_false_iff.mpr allowed))
      obtain ⟨sane, dirs⟩ := sane_locate ends clean filled.dirs (isFolder entry.type)
      have next : Filled host installPath install { fill with canonicalDirs :=
          (locate host fill (installPath ++ escape (trimBack nameBuf) false) (isFolder entry.type)).2 } :=
        { filled with dirs := dirs }
      dsimp only
      split
      · exact { next with }
      next inside =>
        simp only [Bool.or_eq_true, Bool.not_eq_true', not_or, Bool.not_eq_false] at inside
        have under := isPrefixOf_iff_prefix.mp inside.2
        split
        · exact filled_createFolder next sane under
        · exact filled_addEntry next sane under entry.type

lemma filled_fillEntries (ends : installPath.getLast? = some slash) (entries : List PkgEntry)
    (filled : Filled host installPath install fill) :
    Filled host installPath install (fillEntries host installPath install fill entries) := by
  induction entries generalizing fill with
  | nil => exact filled
  | cons entry rest ih =>
    have next := filled_fillEntry ends filled entry
    rw [fillEntries]
    split
    · exact ih next
    · exact next

lemma allowed_extractEntry (filled : Filled host installPath install fill) {ops : List Op}
    (before : ∀ op ∈ ops, Allowed host installPath install op) (index : Nat) :
    ∀ op ∈ extractEntry host fill ops index, Allowed host installPath install op := by
  fun_cases extractEntry host fill ops index with
  | case4 entry found =>
    obtain ⟨sane, inside⟩ := filled.entries entry (mem_of_getElem? found)
    refine forall_mem_append.mpr ⟨before, forall_mem_singleton.mpr ?_⟩
    exact .inr ⟨entry.target.resolved, rfl, .inl inside, sane.plain, sane.linkless⟩
  | _ => exact before

end fill

def chosenRoot (host : Host) (installPath : Bytes) : Path :=
  (installRoot host (createInstallPath host installPath).2 installPath).path

lemma filled_fillData (host : Host) {installPath : Bytes} (ends : installPath.getLast? = some slash)
    (pkg : Content) :
    Filled host installPath (chosenRoot host installPath) (fillData host pkg installPath).1 := by
  have made : Filled host installPath (chosenRoot host installPath)
      ⟨(createInstallPath host installPath).2, [], [], fun _ => none, 0⟩ := by
    refine ⟨fun op member => .inl ?_, fun entry none => ?_, fun entry none => ?_⟩
    · rcases createPath_ops host _ _ _ _ op member with none | own
      · cases none
      · exact own
    · cases none
    · cases none
  fun_cases fillData host pkg installPath with
  | case4 _ _ _ _ _ entries => exact filled_fillEntries ends entries made
  | _ => exact made

theorem installation_contained (host : Host) (pkg : Content) (path : Bytes) (order : List Nat)
    (chosen : setInstallPath host pkg = some path) :
    (∃ below, names path = names (contentDir host pkg.contentType) ++ below ∧
        ∀ name ∈ below, name ≠ current ∧ name ≠ parent) ∧
      ∀ op ∈ install host pkg path order,
        op.origin = .install ∧ op.path <+: elements path ∨
          ∃ resolved, Contained host (chosenRoot host path) op resolved := by
  obtain ⟨ends, below⟩ := names_installPath chosen
  refine ⟨below, ?_⟩
  have filled := filled_fillData host ends pkg
  have all : ∀ (order : List Nat) (done : List Op),
      (∀ op ∈ done, Allowed host path (chosenRoot host path) op) ->
      ∀ op ∈ order.foldl (extractEntry host (fillData host pkg path).1) done,
        Allowed host path (chosenRoot host path) op := by
    intro order
    induction order with
    | nil => exact fun done before => before
    | cons index order ih => exact fun done before => ih _ (allowed_extractEntry filled before index)
  rw [install]
  split
  · exact all order _ filled.ops
  · exact filled.ops

def exampleHost : Host where
  hdd0 := utf8 "/h/"
  usr := utf8 "00000001"
  isLink := fun _ => false
  isThere := fun _ _ => false
  isDir := fun ops path => path = elements (utf8 "/h/game") || ops.any (·.path = path)
  isFile := fun _ _ => false
  createDir := fun _ _ => .made
  openFile := fun _ _ _ => true
  weaklyCanonical := fun _ _ => none
  absolute := by decide +kernel
  canonical := fun _ _ _ found => by cases found

def exampleContent (installDir : Bytes) : Content :=
  ⟨true, 4, installDir, some [⟨some (utf8 "d"), 4⟩, ⟨some (utf8 "d/f"), 3⟩]⟩

theorem installation_contained_example :
    setInstallPath exampleHost (exampleContent (utf8 "A")) = some (utf8 "/h/game/A/") ∧
      ∀ op ∈ install exampleHost (exampleContent (utf8 "A")) (utf8 "/h/game/A/") [0],
        op.origin = .install ∧ op.path <+: elements (utf8 "/h/game/A/") ∨
          ∃ resolved, Contained exampleHost (chosenRoot exampleHost (utf8 "/h/game/A/")) op resolved := by
  have chosen : setInstallPath exampleHost (exampleContent (utf8 "A")) = some (utf8 "/h/game/A/") := by decide +kernel
  exact ⟨chosen, (installation_contained exampleHost (exampleContent (utf8 "A")) (utf8 "/h/game/A/") [0] chosen).2⟩

-- The parent of an installation path is created but does not lie in it.
theorem parent_created : setInstallPath exampleHost (exampleContent (utf8 "A/B")) = some (utf8 "/h/game/A/B/") ∧
    ⟨elements (utf8 "/h/game/A"), .install⟩ ∈
      install exampleHost (exampleContent (utf8 "A/B")) (utf8 "/h/game/A/B/") [] ∧
    ¬elements (utf8 "/h/game/A/B") <+: elements (utf8 "/h/game/A") := by
  decide +kernel

end EmuCore.Pkg
