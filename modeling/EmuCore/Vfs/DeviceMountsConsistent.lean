import EmuCore.Vfs.DeviceMounts

namespace EmuCore.Vfs

open List Function

lemma lookup_add (path other : Bytes) (info : MountInfo) (map : List (Bytes × MountInfo)) :
    ((add path info map).lookup other).isSome = (decide (other = path) || (map.lookup other).isSome) := by
  rw [add]
  split
  next present =>
    by_cases same : other = path
    · simp [same, present]
    · simp [same]
  next =>
    by_cases same : other = path
    · simp [same]
    · have differ : (other == path) = false := by simpa using same
      simp [lookup_cons, same, differ]

lemma lookup_remove (path other : Bytes) (map : List (Bytes × MountInfo)) :
    (remove path map).lookup other = if other = path then none else map.lookup other := by
  induction map with
  | nil => simp [remove]
  | cons entry map ih =>
    rw [remove] at ih ⊢
    by_cases gone : entry.1 = path
    · rw [filter_cons_of_neg (by simp [gone]), ih]
      split
      next => rfl
      next other_ =>
        have differ : (other == entry.1) = false := by simp [gone, other_]
        rw [lookup_cons, differ]
    · rw [filter_cons_of_pos (by simp [gone]), lookup_cons, lookup_cons, ih]
      by_cases same : other = entry.1
      · simp [same, gone]
      · have differ : (other == entry.1) = false := by simpa using same
        simp [differ]

structure IsName (name : Bytes) : Prop where
  plain : Plain name
  current : name ≠ current
  parent : name ≠ parent

variable {name : Bytes}

lemma isName_of_normalize {vpath : Bytes} (member : name ∈ normalize vpath) : IsName name :=
  ⟨plain_normalize member, (mem_normalize member).2.1, (mem_normalize member).2.2⟩

lemma IsName.names (own : IsName name) : names (slash :: name) = [name] := by
  have path : Vfs.names (slash :: merge [name]) = [name] := names_merge (by simpa using own.plain)
  rwa [merge_singleton] at path

lemma IsName.normalize (own : IsName name) : normalize (slash :: name) = [name] := by
  have pushed : [name].foldl pushName [] = [name].reverse ++ [] :=
    foldl_pushName (by simpa using And.intro own.current own.parent) []
  rw [Vfs.normalize, own.names, pushed]
  rfl

lemma isName_root {path root trail : Bytes} (split : getPathRootAndTrail path = some (root, trail))
    (device : root ≠ []) : IsName root := by
  obtain ⟨-, names, place, -⟩ := normalize_of_split split device
  have member : root ∈ normalize path := place ▸ mem_cons_self
  exact isName_of_normalize member

def Consistent (s : Guest) : Prop :=
  ∀ name, IsName name -> ((s.map.lookup (slash :: name)).isSome ↔ (table s.vfs [name]).isSome)

variable {s : Guest}

lemma Consistent.of_same {s' : Guest} (before : Consistent s) (map : s'.map = s.map)
    (tree : table s'.vfs = table s.vfs) : Consistent s' := by
  intro name own
  rw [map, tree]
  exact before name own

lemma hostPath_ne_nil (host : Host) {path : Bytes} (some : path ≠ []) (isDir : Bool) :
    hostPath host path isDir ≠ [] := by
  have resolved : (if host.resolvePath path = [] then path else host.resolvePath path) ≠ [] := by
    split
    next => exact some
    next other => exact other
  unfold hostPath
  dsimp only
  generalize (if host.resolvePath path = [] then path else host.resolvePath path) = found at resolved ⊢
  split_ifs <;> simp [hostRoot, resolved]

lemma withSlash_ne_nil (dir : Bytes) : withSlash dir ≠ [] := by
  unfold withSlash
  split
  next ends =>
    rintro rfl
    cases ends
  next => simp

lemma mountTarget_ne_nil (env : Env) (c : MountCall) (mp : MountPoint) (vfsPath : Bytes) :
    mountTarget env c mp vfsPath ≠ [] := by
  simp [mountTarget, mountDir, withSlash_ne_nil]

lemma mount_name (host : Host) (own : IsName name) {path : Bytes} (some : path ≠ []) (root : Directory)
    (isDir : Bool) :
    (mount host root (slash :: name) path isDir).1 = true ∧
      table (mount host root (slash :: name) path isDir).2 =
        update (table root) [name] (Option.some (hostPath host path isDir)) := by
  have absolute : isAbsolute (slash :: name) = true := rfl
  refine ⟨by simp [mount, absolute], ?_⟩
  rw [table_mount, Call.record, if_pos absolute, own.normalize, nonempty, if_neg (hostPath_ne_nil host some isDir)]

variable (env : Env)

lemma mountDevice_consistent (c : MountCall) (own : IsName name) (mp : MountPoint) (vfsPath : Bytes)
    (before : Consistent s) :
    Consistent (mountDevice env c name mp vfsPath s).2 := by
  obtain ⟨mounted, tree⟩ := mount_name env.host own (mountTarget_ne_nil env c mp vfsPath) s.vfs
    (c.filesystem ≠ simplefs)
  rw [mountDevice]
  split
  next => exact before
  split
  next => exact before
  rw [if_neg (by rw [mounted]; decide)]
  intro other otherName
  rw [lookup_add, tree, update_apply]
  by_cases same : other = name
  · simp [same]
  · simpa [same] using before other otherName

lemma sysFsMount_consistent (c : MountCall) (before : Consistent s) :
    Consistent (sysFsMount env c s).2 := by
  rw [sysFsMount]
  split
  next => exact before
  split
  next root trail mp vfsPath split _ =>
    split_ifs with perm none busy empty exists_
    all_goals try exact before
    have device : root ≠ [] := by
      intro nil
      simp [nil] at exists_
    exact mountDevice_consistent env c (isName_root split device) mp vfsPath before
  next => exact before

def checkedPath (host : Host) (base : Bytes) : Bytes := if base = hostRoot then deleted host else base

lemma fragments_name (own : IsName name) : fragments (slash :: name) = [(name, [])] := by
  obtain ⟨⟨some, noSlash⟩, -, -⟩ := own
  obtain ⟨b, letters, rfl⟩ := exists_cons_of_ne_nil some
  have letter : ∀ c ∈ b :: letters, (!isSlash c) = true := by
    intro c member
    have differ : c ≠ slash := fun same => noSlash (same ▸ member)
    simpa [isSlash] using differ
  have first : isSlash b = false := by simpa using letter b mem_cons_self
  have start : (slash :: b :: letters).dropWhile isSlash = b :: letters := by
    rw [dropWhile_cons_of_pos (by rfl), dropWhile_cons_of_neg (by simp [first])]
  rw [fragments, length_cons, fragmentsFuel]
  rw [start, if_neg some, takeWhile_eq_self_iff.mpr letter, dropWhile_eq_nil_iff.mpr letter]
  rfl

lemma get_name (host : Host) {root : Directory} {base : Bytes} (own : IsName name)
    (mounted : table root [name] = some base) : (get host root (slash :: name)).path = checkedPath host base := by
  obtain ⟨dir, there, rfl, some_⟩ := find_of_table mounted
  have found : Trie.lookup name root.children = some dir := by simpa [Trie.find] using there
  have entered : Walking.step host ⟨[some root], []⟩ (name, []) =
      if dir.value = hostRoot then .error ⟨deleted host, none, []⟩ else .ok ⟨[some dir, some root], [name]⟩ := by
    simp [Walking.step, Walking.enter, own.current, own.parent, found]
  have absolute : isAbsolute (slash :: name) = true := rfl
  rw [get, if_neg (by simp [absolute]), fragments_name own, foldlM_cons, entered, checkedPath]
  by_cases whole : dir.value = hostRoot
  · rw [if_pos whole, if_pos whole]
    rfl
  · have left : remains (slash :: name) = [] := by simp [remains, fragments_name own]
    rw [if_neg whole, if_neg whole, left]
    simp [Walking.finish, lastMounted, some_, merge]

lemma vfsUnmount_ok {host : Host} {c : UnmountCall} (done : (vfsUnmount host c s).1 = true) :
    names c.path ≠ [] ∧ (vfsUnmount host c s).2.map = remove c.path s.map ∧
      (∀ place, table (vfsUnmount host c s).2.vfs place = if names c.path <+: place then none else table s.vfs place) ∧
      (vfsUnmount host c s).2.isFile = if s.isFile (get host s.vfs c.path).path && c.fileRemoved then
        update s.isFile (get host s.vfs c.path).path false else s.isFile := by
  rw [vfsUnmount] at done ⊢
  dsimp only at done ⊢
  split at done
  next => cases done
  next opened =>
    have some : names c.path ≠ [] := by
      intro empty
      simp [unmount, empty] at done
    rw [if_neg opened]
    rw [if_pos done, table_unmount host, Call.record]
    simp [some]

lemma vfsUnmount_failed {host : Host} {c : UnmountCall} (failed : (vfsUnmount host c s).1 = false) :
    (vfsUnmount host c s).2.map = s.map ∧ table (vfsUnmount host c s).2.vfs = table s.vfs := by
  rw [vfsUnmount] at failed ⊢
  split at failed
  next closed =>
    rw [if_pos closed]
    exact ⟨rfl, rfl⟩
  next opened =>
    have empty : names c.path = [] := by
      by_contra some
      simp [unmount, some] at failed
    rw [if_neg opened]
    simp [unmount, empty]

lemma sysFsUnmount_cases {env : Env} (c : UnmountCall) (s : Guest) :
    (sysFsUnmount env c s).1 = .ok ∧ (vfsUnmount env.host c s).1 = true ∧
        (sysFsUnmount env c s).2 = (vfsUnmount env.host c s).2 ∨
      (sysFsUnmount env c s).1 ≠ .ok ∧ (sysFsUnmount env c s).2.map = s.map ∧
        table (sysFsUnmount env c s).2.vfs = table s.vfs := by
  rw [sysFsUnmount]
  split
  next => exact .inr ⟨by simp, rfl, rfl⟩
  split
  next => exact .inr ⟨by simp, rfl, rfl⟩
  next looked _ =>
    dsimp only
    split_ifs with perm device busy done
    · exact .inr ⟨by simp, rfl, rfl⟩
    · exact .inr ⟨by simp, rfl, rfl⟩
    · exact .inr ⟨by simp, rfl, rfl⟩
    · exact .inl ⟨rfl, done, rfl⟩
    · exact .inr ⟨by simp, vfsUnmount_failed (by simpa using done)⟩

structure RemovesOne (s s' : Guest) (name : Bytes) (info : MountInfo) (base : Bytes) : Prop where
  isName : IsName name
  listed : s.map.lookup (slash :: name) = some info
  mounted : table s.vfs [name] = some base
  map : ∀ path, s'.map.lookup path = if path = slash :: name then none else s.map.lookup path
  tree : ∀ place, table s'.vfs place = if place = [name] then none else table s.vfs place
  files : ∀ file, s'.isFile file ≠ s.isFile file -> file = base ∧ info.fileSystem = simplefs

/-- The path is spelled as the map has it, nothing is mounted below the device, and a file that the check finds is the
simplefs image. -/
structure PlainUnmount (host : Host) (c : UnmountCall) (s : Guest) (name : Bytes) (info : MountInfo)
    (base : Bytes) : Prop where
  isName : IsName name
  path : c.path = slash :: name
  listed : s.map.lookup (slash :: name) = some info
  mounted : table s.vfs [name] = some base
  below : ∀ next place, table s.vfs (name :: next :: place) = none
  image : s.isFile (checkedPath host base) = true -> c.fileRemoved = true ->
    base ≠ hostRoot ∧ info.fileSystem = simplefs

lemma deleted_ne_hostRoot (host : Host) : deleted host ≠ hostRoot := by
  intro same
  have long := congrArg List.length same
  have tail : ("delete_this_dir.../delete_this...".toUTF8.toList).length = 33 := by decide +kernel
  rw [deleted, length_append, tail] at long
  simp [hostRoot] at long

lemma removesOne_iff {env : Env} {c : UnmountCall} (done : (sysFsUnmount env c s).1 = .ok) (name : Bytes)
    (info : MountInfo) (base : Bytes) :
    RemovesOne s (sysFsUnmount env c s).2 name info base ↔ PlainUnmount env.host c s name info base := by
  rcases sysFsUnmount_cases c s with ⟨-, ok, same⟩ | ⟨failed, -⟩
  · obtain ⟨-, map, tree, files⟩ := vfsUnmount_ok ok
    rw [same]
    constructor
    · intro one
      have path : c.path = slash :: name := by
        have gone := one.map (slash :: name)
        rw [map, lookup_remove, if_pos rfl, one.listed] at gone
        by_contra differ
        rw [if_neg fun spelled => differ spelled.symm] at gone
        cases gone
      refine ⟨one.isName, path, one.listed, one.mounted, fun next place => ?_, fun found removed => ?_⟩
      · have kept := one.tree (name :: next :: place)
        rw [tree, path, one.isName.names, if_pos ⟨next :: place, rfl⟩, if_neg (by simp)] at kept
        exact kept.symm
      have changed := one.files (checkedPath env.host base)
      rw [files, path, get_name env.host one.isName one.mounted] at changed
      obtain ⟨own, image⟩ := changed (by simp [found, removed])
      refine ⟨fun whole => ?_, image⟩
      rw [checkedPath, if_pos whole, whole] at own
      exact deleted_ne_hostRoot env.host own
    · intro plain
      have path := plain.path
      refine ⟨plain.isName, plain.listed, plain.mounted, fun other => ?_, fun place => ?_, fun file changed => ?_⟩
      · rw [map, lookup_remove, path]
      · rw [tree, path, plain.isName.names]
        rcases place with _ | ⟨first, _ | ⟨next, place⟩⟩
        · simp
        · simp [eq_comm]
        by_cases under : name = first
        · obtain rfl := under
          simp [plain.below]
        · simp [under]
      · rw [files, path, get_name env.host plain.isName plain.mounted] at changed
        split at changed
        next both =>
          obtain ⟨found, removed⟩ := Bool.and_eq_true_iff.mp both
          obtain ⟨own, image⟩ := plain.image found removed
          refine ⟨?_, image⟩
          rw [checkedPath, if_neg own] at changed
          by_contra other
          exact changed (update_of_ne other _ _)
        next => exact absurd rfl changed
  · exact absurd done failed

lemma RemovesOne.consistent {s' : Guest} {base : Bytes} {info : MountInfo} (one : RemovesOne s s' name info base)
    (before : Consistent s) : Consistent s' := by
  intro other own
  rw [one.map, one.tree]
  by_cases same : other = name
  · simp [same]
  · simpa [same] using before other own

lemma sysFsUnmount_consistent (c : UnmountCall) (before : Consistent s)
    (plain : (sysFsUnmount env c s).1 = .ok -> ∃ name info base, PlainUnmount env.host c s name info base) :
    Consistent (sysFsUnmount env c s).2 := by
  rcases sysFsUnmount_cases c s with ⟨ok, -⟩ | ⟨-, map, tree⟩
  · obtain ⟨name, info, base, plain⟩ := plain ok
    exact ((removesOne_iff ok name info base).mpr plain).consistent before
  · exact before.of_same map tree

lemma runDevices_append (s : Guest) (first second : List DeviceCall) :
    runDevices env s (first ++ second) = runDevices env (runDevices env s first) second := by
  simp [runDevices]

lemma runDevices_consistent (start : Consistent s) (calls : List DeviceCall)
    (plain : ∀ done c left, calls = done ++ .unmount c :: left ->
      (sysFsUnmount env c (runDevices env s done)).1 = .ok ->
        ∃ name info base, PlainUnmount env.host c (runDevices env s done) name info base) :
    Consistent (runDevices env s calls) := by
  induction calls using List.reverseRecOn with
  | nil => exact start
  | append_singleton calls call ih =>
    have before := ih fun done c left split => plain done c (left ++ [call]) (by simp [split])
    rw [runDevices_append]
    cases call with
    | mount c => exact sysFsMount_consistent env c before
    | unmount c => exact sysFsUnmount_consistent env c before (plain calls c [] rfl)

/-- The map and the tree agree after every call, and every unmount that succeeds takes exactly one device away, just
when every such unmount is plain. -/
theorem device_mounts_iff (env : Env) (s : Guest) (start : Consistent s) (calls : List DeviceCall) :
    ((∀ done left, calls = done ++ left -> Consistent (runDevices env s done)) ∧
        ∀ done c left, calls = done ++ .unmount c :: left -> (sysFsUnmount env c (runDevices env s done)).1 = .ok ->
          ∃ name info base, RemovesOne (runDevices env s done) (sysFsUnmount env c (runDevices env s done)).2
            name info base) ↔
      ∀ done c left, calls = done ++ .unmount c :: left -> (sysFsUnmount env c (runDevices env s done)).1 = .ok ->
        ∃ name info base, PlainUnmount env.host c (runDevices env s done) name info base := by
  constructor
  · rintro ⟨-, removes⟩ done c left split ok
    obtain ⟨name, info, base, one⟩ := removes done c left split ok
    exact ⟨name, info, base, (removesOne_iff ok name info base).mp one⟩
  intro plain
  refine ⟨fun done left split => ?_, fun done c left split ok => ?_⟩
  · refine runDevices_consistent env start done fun earlier c later inside => ?_
    exact plain earlier c (later ++ left) (by simp [split, inside])
  · obtain ⟨name, info, base, own⟩ := plain done c left split ok
    exact ⟨name, info, base, (removesOne_iff ok name info base).mpr own⟩

lemma consistent_single (name base : Bytes) (some : base ≠ []) (info : MountInfo) (isFile : Bytes -> Bool) :
    Consistent ⟨.node [] [(name, .node base [])], [(slash :: name, info)], isFile⟩ := by
  intro other _
  by_cases same : name = other
  · simp [table, Trie.valueAt, Trie.find, Trie.lookup, Trie.children, Trie.value, nonempty, same, some]
  · have differ : (other == name) = false := beq_eq_false_iff_ne.mpr (Ne.symm same)
    simp [table, Trie.valueAt, Trie.find, Trie.lookup, Trie.children, same, lookup_cons, differ]

def exampleEnv : Env where
  host := exampleHost
  config := ⟨[], [], [], [], [], [], [], fun _ => [], false⟩
  hasRootPerm := false
  appname := []
  dir := []

-- "/u" is the simplefs image "/f".
def imageGuest : Guest where
  vfs := .node [] [([0x75], .node [0x2f, 0x66] [])]
  map := [([0x2f, 0x75], ⟨mpDevUsb, [], simplefs, false⟩)]
  isFile := fun file => file = [0x2f, 0x66]

def stickGuest : Guest where
  vfs := .node [] [([0x75], .node [0x2f, 0x64, 0x2f] [])]
  map := [([0x2f, 0x75], ⟨mpDevUsb, [], mpDevUsb.fileSystem, false⟩)]
  isFile := fun file => file = [0x2f, 0x64, 0x2f, 0x61]

theorem device_mounts_image :
    (sysFsUnmount exampleEnv ⟨[0x2f, 0x75], false, true, true⟩ imageGuest).1 = .ok ∧
      ∃ name info base, RemovesOne imageGuest
        (sysFsUnmount exampleEnv ⟨[0x2f, 0x75], false, true, true⟩ imageGuest).2 name info base := by
  have ok : (sysFsUnmount exampleEnv ⟨[0x2f, 0x75], false, true, true⟩ imageGuest).1 = .ok := by decide +kernel
  have name : IsName [0x75] := ⟨⟨by decide, by decide⟩, by decide, by decide⟩
  have start : Consistent imageGuest := consistent_single [0x75] [0x2f, 0x66] (by decide) _ _
  have plain : PlainUnmount exampleEnv.host ⟨[0x2f, 0x75], false, true, true⟩ imageGuest [0x75]
      ⟨mpDevUsb, [], simplefs, false⟩ [0x2f, 0x66] :=
    ⟨name, rfl, rfl, rfl, fun next place => rfl, fun _ _ => ⟨by decide, rfl⟩⟩
  have runs := (device_mounts_iff exampleEnv imageGuest start
    [.unmount ⟨[0x2f, 0x75], false, true, true⟩]).mpr (by
      intro done c left split _
      cases done with
      | nil =>
        cases split
        exact ⟨_, _, _, plain⟩
      | cons first done => simp at split)
  exact ⟨ok, runs.2 [] _ [] rfl ok⟩

/-- "//u" leaves the tree without the device and the map with it. "/u/a" deletes a file of the device. -/
theorem device_mounts_spelled :
    Consistent stickGuest ∧
      ((sysFsUnmount exampleEnv ⟨[0x2f, 0x2f, 0x75], false, true, true⟩ stickGuest).1 = .ok ∧
        ¬Consistent (sysFsUnmount exampleEnv ⟨[0x2f, 0x2f, 0x75], false, true, true⟩ stickGuest).2) ∧
      (sysFsUnmount exampleEnv ⟨[0x2f, 0x75, 0x2f, 0x61], false, true, true⟩ stickGuest).1 = .ok ∧
      stickGuest.isFile [0x2f, 0x64, 0x2f, 0x61] = true ∧
      (sysFsUnmount exampleEnv ⟨[0x2f, 0x75, 0x2f, 0x61], false, true, true⟩ stickGuest).2.isFile
        [0x2f, 0x64, 0x2f, 0x61] = false ∧
      (sysFsUnmount exampleEnv ⟨[0x2f, 0x75, 0x2f, 0x61], false, true, true⟩ stickGuest).2.map = stickGuest.map := by
  have name : IsName [0x75] := ⟨⟨by decide, by decide⟩, by decide, by decide⟩
  refine ⟨consistent_single [0x75] [0x2f, 0x64, 0x2f] (by decide) _ _, ⟨by decide +kernel, fun after => ?_⟩,
    by decide +kernel, by decide, by decide +kernel, by decide +kernel⟩
  have listed : ((sysFsUnmount exampleEnv ⟨[0x2f, 0x2f, 0x75], false, true, true⟩ stickGuest).2.map.lookup
      [0x2f, 0x75]).isSome = true := by decide +kernel
  have gone : (table (sysFsUnmount exampleEnv ⟨[0x2f, 0x2f, 0x75], false, true, true⟩ stickGuest).2.vfs
      [[0x75]]).isSome = false := by decide +kernel
  have both := (after [0x75] name).mp listed
  rw [gone] at both
  cases both

end EmuCore.Vfs
