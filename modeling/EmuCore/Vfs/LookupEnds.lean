import EmuCore.Vfs.DeviceMounts

namespace EmuCore.Vfs

open Option

variable (map : MountInfoMap)

-- The path on another device that the device of `path` stands for.
def aliasOf (path : Bytes) : Option Bytes := do
  let (devRoot, _) ← getPathRootAndTrail path
  let info ← if devRoot = [] then none else map.devices (slash :: devRoot)
  if cellFsPath.isPrefixOf info.device then some (info.device.drop cellFsPath.length) else none

def follow : Nat -> Bytes -> Option Bytes
  | 0, path => some path
  | n + 1, path => (aliasOf map path).bind (follow n)

variable {map} {dir path next : Bytes}

lemma follow_add (first second : Nat) (path : Bytes) :
    follow map (first + second) path = (follow map first path).bind (follow map second) := by
  induction first generalizing path with
  | zero => simp [follow]
  | succ first ih =>
    rw [Nat.succ_add, follow, follow, bind_assoc]
    exact bind_congr fun next _ => ih next

-- The second look, at the program's own directory, goes no further.
lemma lookup_dir (map : MountInfoMap) (dir : Bytes) (fuel : Nat) : (lookup map dir (fuel + 1) dir false).isSome := by
  obtain ⟨root, trail, split⟩ := exists_split dir
  by_cases device : root = []
  · simp [lookup, split, device]
  cases found : map.devices (slash :: root) with
  | none => simp [lookup_none split device map dir fuel found]
  | some info => simp [lookup, split, device, found]

lemma aliasOf_eq_some : aliasOf map path = some next ↔ ∃ root trail info,
    getPathRootAndTrail path = some (root, trail) ∧ root ≠ [] ∧ map.devices (slash :: root) = some info ∧
      cellFsPath.isPrefixOf info.device = true ∧ info.device.drop cellFsPath.length = next := by
  obtain ⟨root, trail, split⟩ := exists_split path
  by_cases device : root = []
  · simp [aliasOf, split, device]
  · simp [aliasOf, split, device, bind_eq_some_iff]

lemma lookup_alias {fuel : Nat} (known : aliasOf map path = some next)
    (ends : (lookup map dir (fuel + 1) path true).isSome) : (lookup map dir fuel next true).isSome := by
  obtain ⟨root, trail, info, split, device, found, aliased, rfl⟩ := aliasOf_eq_some.mp known
  cases inner : lookup map dir fuel (info.device.drop cellFsPath.length) true with
  | none => simp [lookup, split, device, found, List.isPrefixOf_iff_prefix.mp aliased, inner] at ends
  | some ret => rfl

lemma lookup_of_alias {fuel : Nat} {noCellFsPath : Bool}
    (ends : ∀ next, noCellFsPath = true -> aliasOf map path = some next -> (lookup map dir (fuel + 1) next true).isSome) :
    (lookup map dir (fuel + 2) path noCellFsPath).isSome := by
  obtain ⟨root, trail, split⟩ := exists_split path
  obtain ⟨dirRoot, dirTrail, dirSplit⟩ := exists_split dir
  obtain ⟨seen, again⟩ := isSome_iff_exists.mp (lookup_dir map dir fuel)
  by_cases device : root = []
  · simp [lookup, split, device]
  cases found : map.devices (slash :: root) with
  | none => simp [lookup_none split device map dir (fuel + 1) found]
  | some info =>
    by_cases aliased : noCellFsPath = true ∧ cellFsPath.isPrefixOf info.device = true
    · obtain ⟨rfl, aliased⟩ := aliased
      obtain ⟨ret, inner⟩ := isSome_iff_exists.mp
        (ends _ rfl (aliasOf_eq_some.mpr ⟨root, trail, info, split, device, found, aliased, rfl⟩))
      rw [lookup]
      simp only [split, device, found, aliased, inner, dirSplit, again, bind_eq_bind, bind_some,
        if_false, Bool.and_self, if_true]
      split_ifs <;> rfl
    · rw [← Bool.and_eq_true, Bool.not_eq_true] at aliased
      rw [lookup]
      simp only [split, device, found, aliased, dirSplit, again, bind_eq_bind, bind_some, if_false,
        Bool.false_eq_true]
      split_ifs <;> rfl

lemma follow_of_lookup (fuel : Nat) (ends : (lookup map dir fuel path true).isSome) : follow map fuel path = none := by
  induction fuel generalizing path with
  | zero => cases ends
  | succ fuel ih =>
    cases known : aliasOf map path with
    | none => rw [follow, known, bind_none]
    | some next => rw [follow, known, bind_some, ih (lookup_alias known ends)]

lemma lookup_of_follow {n : Nat} (stops : follow map n path = none) : (lookup map dir (n + 1) path true).isSome := by
  induction n generalizing path with
  | zero => cases stops
  | succ n ih =>
    refine lookup_of_alias fun next _ known => ih ?_
    rwa [follow, known, bind_some] at stops

lemma follow_cycle {n : Nat} (back : follow map (n + 1) path = some path) (rounds : Nat) :
    follow map (rounds * (n + 1)) path = some path := by
  induction rounds with
  | zero => rw [Nat.zero_mul, follow]
  | succ rounds ih => rw [Nat.succ_mul, follow_add, ih, bind_some, back]

lemma lookup_of_cycle {n : Nat} (back : follow map (n + 1) path = some path) (dir : Bytes) (fuel : Nat) :
    lookup map dir fuel path true = none := by
  by_contra ends
  have stops := follow_of_lookup fuel (isSome_iff_ne_none.mpr ends)
  have round := follow_cycle back fuel
  rw [Nat.mul_succ, Nat.add_comm, follow_add, stops] at round
  cases round

lemma follow_mem {s : Guest} {n : Nat} (goes : follow s.infos (n + 1) path = some next) :
    next ∈ s.map.map fun entry => entry.2.device.drop cellFsPath.length := by
  induction n generalizing path with
  | zero =>
    obtain ⟨mid, known, same⟩ := bind_eq_some_iff.mp goes
    obtain rfl := some.inj same
    obtain ⟨root, trail, info, -, -, found, -, rfl⟩ := aliasOf_eq_some.mp known
    obtain ⟨before, after, split, -⟩ := List.lookup_eq_some_iff.mp found
    simp [split]
  | succ n ih =>
    obtain ⟨first, -, goes⟩ := bind_eq_some_iff.mp goes
    exact ih goes

-- An endless chain has only the devices of the table to go through, so it comes back.
lemma exists_cycle {s : Guest} (endless : ∀ n, follow s.infos n path ≠ none) :
    ∃ path n, follow s.infos (n + 1) path = some path := by
  let targets := s.map.map fun entry => entry.2.device.drop cellFsPath.length
  have inside (n : Nat) : follow s.infos (n + 1) path ∈ {goal | goal ∈ targets.map some} := by
    obtain ⟨next, goes⟩ := ne_none_iff_exists'.mp (endless (n + 1))
    rw [goes]
    exact List.mem_map_of_mem (follow_mem goes)
  obtain ⟨first, second, later, same⟩ :=
    Set.Finite.exists_lt_map_eq_of_forall_mem inside (List.finite_toSet _)
  obtain ⟨next, goes⟩ := ne_none_iff_exists'.mp (endless (first + 1))
  obtain ⟨n, rfl⟩ := Nat.exists_eq_add_of_lt later
  refine ⟨next, n, ?_⟩
  rw [goes, show first + n + 1 + 1 = first + 1 + (n + 1) by omega, follow_add, goes, bind_some] at same
  exact same.symm

/-- Looking up ends for every path just when no chain of devices that stand for paths on other devices comes back. -/
theorem lookup_ends_iff (env : Env) (start : Guest) (calls : List DeviceCall) :
    (∀ path noCellFsPath, ∃ fuel, (lookup (runDevices env start calls).infos env.dir fuel path noCellFsPath).isSome) ↔
      ∀ path n, follow (runDevices env start calls).infos (n + 1) path ≠ some path := by
  constructor
  · intro ends path n back
    obtain ⟨fuel, ends⟩ := ends path true
    rw [lookup_of_cycle back] at ends
    cases ends
  intro none path noCellFsPath
  cases noCellFsPath with
  | false => exact ⟨2, lookup_of_alias fun _ other => by cases other⟩
  | true =>
    by_contra stuck
    obtain ⟨path, n, back⟩ := exists_cycle fun n stops => stuck ⟨n + 1, lookup_of_follow stops⟩
    exact none path n back

-- The hard disk is mounted as a stick and the stick as the hard disk.
def swapped : List DeviceCall :=
  [.mount ⟨cellFsPath ++ mpDevHdd0.root, mpDevHdd0.fileSystem, text "/dev_usb000", false, true, true, true, true⟩,
    .unmount ⟨mpDevHdd0.root, false, true, true⟩,
    .mount ⟨cellFsPath ++ text "/dev_usb000", mpDevHdd0.fileSystem, mpDevHdd0.root, false, true, true, true, true⟩]

def rootEnv : Env where
  host := exampleHost
  config := ⟨text "/h/", [], [], [], [], [], [], fun _ => [], false⟩
  hasRootPerm := true
  appname := []
  dir := []

def diskGuest : Guest where
  vfs := .node [] [(text "dev_hdd0", .node (text "/h/") [])]
  map := [([slash], ⟨mpDevRoot, mpDevRoot.device, mpDevRoot.fileSystem, false⟩),
    (mpDevHdd0.root, ⟨mpDevHdd0, mpDevHdd0.device, mpDevHdd0.fileSystem, false⟩)]
  isFile := fun _ => false

theorem lookup_ends_swapped : ¬∃ fuel,
    (lookup (runDevices rootEnv diskGuest swapped).infos rootEnv.dir fuel (text "/dev_hdd0") true).isSome := by
  have back : follow (runDevices rootEnv diskGuest swapped).infos 2 (text "/dev_hdd0") = some (text "/dev_hdd0") := by
    decide +kernel
  rintro ⟨fuel, ends⟩
  rw [lookup_of_cycle back] at ends
  cases ends

end EmuCore.Vfs
