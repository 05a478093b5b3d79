import EmuCore.Vfs.PathRoot
import EmuCore.Vfs.Resolve

namespace EmuCore.Vfs

open List

def Plain (name : Bytes) : Prop := name ≠ [] ∧ slash ∉ name

lemma merge_singleton (name : Bytes) : merge [name] = name := by simp [merge]

lemma merge_cons {rest : List Bytes} (some : rest ≠ []) (name : Bytes) :
    merge (name :: rest) = name ++ slash :: merge rest := by
  cases rest with
  | nil => exact absurd rfl some
  | cons next rest => simp [merge, intercalate_cons_cons]

lemma merge_append {first : List Bytes} (some : first ≠ []) (name : Bytes) :
    merge (first ++ [name]) = merge first ++ [slash] ++ name := by
  induction first with
  | nil => exact absurd rfl some
  | cons head rest ih =>
    rw [cons_append, merge_cons (by simp)]
    cases rest with
    | nil => simp [merge_singleton]
    | cons next rest =>
      rw [ih (cons_ne_nil _ _), merge_cons (cons_ne_nil next rest)]
      simp

lemma merge_eq_nil {names : List Bytes} (plain : ∀ name ∈ names, Plain name) :
    merge names = [] ↔ names = [] := by
  refine ⟨fun empty => ?_, fun none => none ▸ rfl⟩
  cases names with
  | nil => rfl
  | cons name rest =>
    have some := (plain name mem_cons_self).1
    cases rest with
    | nil => exact absurd (merge_singleton name ▸ empty) some
    | cons next rest =>
      rw [merge_cons (cons_ne_nil _ _)] at empty
      exact absurd (append_eq_nil_iff.mp empty).1 some

lemma rdropWhile_append_all {p : UInt8 -> Bool} (kept : Bytes) {cut : Bytes} (all : ∀ b ∈ cut, p b = true) :
    (kept ++ cut).rdropWhile p = kept.rdropWhile p := by
  induction cut using List.reverseRecOn with
  | nil => rw [append_nil]
  | append_singleton cut b ih =>
    rw [← append_assoc, rdropWhile_concat_pos _ _ _ (all b (by simp))]
    exact ih fun c member => all c (mem_append_left _ member)

lemma rdropWhile_slash_merge {names : List Bytes} (plain : ∀ name ∈ names, Plain name) :
    (merge names).rdropWhile isSlash = merge names := by
  have last : ∀ start name, Plain name -> (start ++ name).rdropWhile isSlash = start ++ name := by
    rintro start name ⟨nonempty, noSlash⟩
    refine rdropWhile_eq_self_iff.mpr fun full ends => ?_
    rw [getLast_append_of_ne_nil _ nonempty] at ends
    have member := getLast_mem nonempty
    rw [of_decide_eq_true ends] at member
    exact noSlash member
  cases names using List.reverseRecOn with
  | nil => rfl
  | append_singleton first name =>
    have own := plain name (by simp)
    by_cases none : first = []
    · subst none
      rw [nil_append, merge_singleton]
      exact last [] name own
    · rw [merge_append none]
      exact last _ name own

def splitOf : List Bytes -> Split
  | [] => ⟨[], [], 0⟩
  | root :: names => ⟨root, merge names, names.length + 1⟩

variable {place : List Bytes}

lemma splitOf_leave (plain : ∀ name ∈ place, Plain name) :
    (splitOf place).leave = if place = [] then .error .enoent else .ok (splitOf place.dropLast) := by
  cases place with
  | nil => rfl
  | cons root names =>
    rw [if_neg (cons_ne_nil _ _)]
    cases names using List.reverseRecOn with
    | nil => rfl
    | append_singleton names name =>
      have inside : ∀ other ∈ names, Plain other := fun other member =>
        plain other (mem_cons_of_mem _ (mem_append_left _ member))
      obtain ⟨some, noSlash⟩ := plain name (by simp)
      have all : ∀ b ∈ name, (!isSlash b) = true := by
        intro b member
        have : b ≠ slash := fun same => noSlash (same ▸ member)
        simpa [isSlash] using this
      have cut : ((merge (names ++ [name])).rdropWhile (!isSlash ·)).rdropWhile isSlash = merge names := by
        by_cases none : names = []
        · subst none
          have whole := rdropWhile_append_all [] all
          rw [nil_append] at whole
          rw [nil_append, merge_singleton, whole]
          rfl
        · rw [merge_append none, rdropWhile_append_all _ all]
          rw [rdropWhile_concat_neg _ _ _ (by simp [isSlash])]
          rw [rdropWhile_concat_pos _ _ _ (by simp [isSlash])]
          exact rdropWhile_slash_merge inside
      have full : merge (names ++ [name]) ≠ [] := by
        rw [ne_eq, merge_eq_nil fun other member => plain other (mem_cons_of_mem _ member)]
        simp
      have rest : (root :: (names ++ [name])).dropLast = root :: names := by
        rw [← cons_append, dropLast_concat]
      have deep : 1 < (names ++ [name]).length + 1 := by simp
      rw [rest]
      simp only [splitOf, Split.leave, if_pos deep, if_neg full, cut]
      simp

lemma splitOf_enter (plain : ∀ name ∈ place, Plain name) (name : Bytes) :
    (splitOf place).enter name = splitOf (place ++ [name]) := by
  cases place with
  | nil => rfl
  | cons root names =>
    have inside := merge_eq_nil fun other member => plain other (mem_cons_of_mem root member)
    rw [cons_append, splitOf, splitOf, Split.enter]
    dsimp only
    rw [if_neg (Nat.succ_ne_zero _)]
    by_cases none : names = []
    · subst none
      simp [merge]
    · rw [if_neg (mt inside.mp none), merge_append none, length_append]
      rfl

variable {stack : List Bytes}

lemma splitOf_step (plain : ∀ name ∈ stack, Plain name) (name : Bytes) :
    (splitOf stack.reverse).step name = .error .enoent ∧ name = parent ∨
      (splitOf stack.reverse).step name = .ok (splitOf (pushName stack name).reverse) := by
  have reversed : ∀ name ∈ stack.reverse, Plain name := fun name member => plain name (mem_reverse.mp member)
  rw [pushName_reverse, Split.step]
  split
  · exact .inr rfl
  split
  next parents =>
    rw [splitOf_leave reversed]
    split
    · exact .inl ⟨rfl, parents⟩
    · exact .inr rfl
  · exact .inr (congrArg Except.ok (splitOf_enter reversed name))

lemma plain_pushName (plain : ∀ name ∈ stack, Plain name) {name : Bytes} (own : Plain name) :
    ∀ other ∈ pushName stack name, Plain other := by
  rw [pushName]
  split
  · exact plain
  · split
    · exact fun other member => plain other (mem_of_mem_tail member)
    · exact forall_mem_cons.mpr ⟨own, plain⟩

variable {vpath : Bytes}

lemma plain_fragmentsFuel {fuel : Nat} {fragment : Bytes × Bytes} (member : fragment ∈ fragmentsFuel fuel vpath) :
    Plain fragment.1 := by
  refine ⟨?_, mem_fragmentsFuel member⟩
  induction fuel generalizing vpath with
  | zero => cases member
  | succ fuel ih =>
    rw [fragmentsFuel] at member
    dsimp only at member
    split at member
    · cases member
    next full =>
      rcases mem_cons.mp member with rfl | later
      · have first := head_dropWhile_not isSlash full
        dsimp only
        rw [← cons_head_tail full, takeWhile_cons, first]
        exact cons_ne_nil _ _
      · exact ih later

lemma splitFuel_step (fuel : Nat) {rest : Bytes} (absolute : rest.head? = some slash)
    (plain : ∀ name ∈ stack, Plain name) :
    splitFuel fuel rest (splitOf stack.reverse) = .error .enoent ∧ parent ∈ (fragmentsFuel fuel rest).map (·.1) ∨
      splitFuel fuel rest (splitOf stack.reverse) =
        .ok (splitOf (((fragmentsFuel fuel rest).map (·.1)).foldl pushName stack).reverse) := by
  induction fuel generalizing rest stack with
  | zero => exact .inr rfl
  | succ fuel ih =>
    have moved : rest.dropWhile isSlash ≠ rest := by
      cases rest with
      | nil => cases absolute
      | cons b rest =>
        obtain rfl : b = slash := Option.some.inj absolute
        intro same
        have shorter := (dropWhile_suffix isSlash (l := rest)).length_le
        rw [dropWhile_cons_of_pos (by simp [isSlash])] at same
        rw [same] at shorter
        simp at shorter
    have own : ∀ fragment ∈ fragmentsFuel (fuel + 1) rest, Plain fragment.1 := fun _ => plain_fragmentsFuel
    rw [fragmentsFuel] at own ⊢
    rw [splitFuel]
    dsimp only at own ⊢
    rw [if_neg moved]
    split
    · exact .inr rfl
    next full =>
      rw [if_neg full] at own
      generalize left : (rest.dropWhile isSlash).dropWhile (!isSlash ·) = after at own ⊢
      generalize (rest.dropWhile isSlash).takeWhile (!isSlash ·) = name at own ⊢
      have next := plain_pushName plain (own (name, after) mem_cons_self)
      rw [map_cons, foldl_cons]
      rcases splitOf_step plain name with ⟨stops, rfl⟩ | goes
      · exact .inl ⟨by rw [stops]; rfl, mem_cons_self⟩
      rw [goes, Except.bind]
      split
      next ended =>
        have none : fragmentsFuel fuel after = [] := by
          rw [ended]
          cases fuel <;> rfl
        rw [none]
        exact .inr rfl
      next more =>
        refine (ih ?_ next).imp_left fun stops => ⟨stops.1, mem_cons_of_mem _ stops.2⟩
        subst left
        have first := head_dropWhile_not (!isSlash ·) more
        rw [head?_eq_some_head more]
        exact congrArg some (of_decide_eq_true ((Bool.not_eq_false' _).mp first))

variable {path : Bytes}

lemma split_of_absolute (absolute : path.head? = some slash) :
    getPathRootAndTrail path = some ([], enoent) ∧ parent ∈ names path ∨
      getPathRootAndTrail path = some ((splitOf (normalize path)).root, (splitOf (normalize path)).trail) := by
  have start : (⟨[], [], 0⟩ : Split) = splitOf (List.reverse []) := rfl
  have some : path ≠ [] := by
    rintro rfl
    cases absolute
  rw [getPathRootAndTrail, if_neg some, start]
  have fresh : ∀ name ∈ ([] : List Bytes), Plain name := by simp
  rcases splitFuel_step path.length absolute fresh with ⟨stops, above⟩ | goes
  · exact .inl ⟨by rw [stops], above⟩
  · exact .inr (by rw [goes]; rfl)

variable {root trail : Bytes}

lemma split_of_relative (relative : path.head? ≠ some slash) : getPathRootAndTrail path = some ([], enoent) := by
  cases path with
  | nil => rfl
  | cons b rest =>
    have other : isSlash b = false := by simpa [isSlash] using relative
    have stops : splitFuel (b :: rest).length (b :: rest) ⟨[], [], 0⟩ = .error .enoent := by
      rw [length_cons, splitFuel]
      dsimp only
      rw [dropWhile_cons_of_neg (by simp [other]), if_pos rfl]
    rw [getPathRootAndTrail, if_neg (cons_ne_nil b rest), stops]

lemma exists_split (path : Bytes) : ∃ root trail, getPathRootAndTrail path = some (root, trail) := by
  by_cases absolute : path.head? = some slash
  · rcases split_of_absolute absolute with ⟨stops, -⟩ | goes
    · exact ⟨_, _, stops⟩
    · exact ⟨_, _, goes⟩
  · exact ⟨_, _, split_of_relative absolute⟩

lemma normalize_of_split (split : getPathRootAndTrail path = some (root, trail)) (device : root ≠ []) :
    isAbsolute path = true ∧ ∃ names, normalize path = root :: names ∧ trail = merge names := by
  have absolute : path.head? = some slash := by
    by_contra relative
    rw [split_of_relative relative] at split
    cases split
    exact device rfl
  refine ⟨by simp [isAbsolute, absolute], ?_⟩
  have known := split_of_absolute absolute
  rw [split] at known
  rcases known with ⟨stops, -⟩ | goes
  · cases stops
    exact absurd rfl device
  cases place : normalize path with
  | nil =>
    rw [place] at goes
    cases goes
    exact absurd rfl device
  | cons first names =>
    rw [place] at goes
    cases goes
    exact ⟨names, rfl, rfl⟩

lemma fragmentsFuel_enough {fuel more : Nat} (enough : vpath.length ≤ fuel) (larger : fuel ≤ more) :
    fragmentsFuel more vpath = fragmentsFuel fuel vpath := by
  induction fuel generalizing more vpath with
  | zero =>
    obtain rfl := length_eq_zero_iff.mp (Nat.le_zero.mp enough)
    cases more <;> rfl
  | succ fuel ih =>
    obtain ⟨more, rfl⟩ := Nat.exists_eq_add_one_of_ne_zero (Nat.ne_zero_of_lt larger)
    rw [fragmentsFuel, fragmentsFuel]
    dsimp only
    split
    · rfl
    next full =>
      have name := head_dropWhile_not isSlash full
      have shorter : ((vpath.dropWhile isSlash).dropWhile (!isSlash ·)).length ≤ fuel := by
        have outer := (dropWhile_suffix isSlash (l := vpath)).length_le
        rw [← cons_head_tail full] at outer ⊢
        rw [dropWhile_cons_of_pos (by rw [name]; rfl)]
        have inner := (dropWhile_suffix (!isSlash ·) (l := (vpath.dropWhile isSlash).tail)).length_le
        rw [length_cons] at outer
        omega
      rw [ih shorter (Nat.le_of_succ_le_succ larger)]

lemma names_cons {name rest : Bytes} (own : Plain name) (ends : rest = [] ∨ rest.head? = some slash) :
    names (slash :: (name ++ rest)) = name :: names rest := by
  obtain ⟨nonempty, noSlash⟩ := own
  obtain ⟨b, letters, rfl⟩ := exists_cons_of_ne_nil nonempty
  have letter : ∀ c ∈ b :: letters, (!isSlash c) = true := by
    intro c member
    have : c ≠ slash := fun same => noSlash (same ▸ member)
    simpa [isSlash] using this
  have first : isSlash b = false := by simpa using letter b mem_cons_self
  have start : (slash :: (b :: letters ++ rest)).dropWhile isSlash = b :: letters ++ rest := by
    rw [dropWhile_cons_of_pos (by simp [isSlash]), cons_append,
      dropWhile_cons_of_neg (by simp [first])]
  have word : (b :: letters ++ rest).takeWhile (!isSlash ·) = b :: letters ∧
      (b :: letters ++ rest).dropWhile (!isSlash ·) = rest := by
    rw [takeWhile_append_of_pos letter, dropWhile_append_of_pos letter]
    rcases ends with rfl | slashed
    · exact ⟨append_nil _, rfl⟩
    · obtain ⟨rest, rfl⟩ := head?_eq_some_iff.mp slashed
      exact ⟨by simp [isSlash], by simp [isSlash]⟩
  rw [names, fragments, length_cons, fragmentsFuel]
  dsimp only
  rw [start, if_neg (by simp), word.1, word.2, map_cons]
  rw [fragmentsFuel_enough le_rfl (by simp; omega)]
  rfl

lemma names_merge (plain : ∀ name ∈ place, Plain name) :
    names (slash :: merge place) = place := by
  induction place with
  | nil => rfl
  | cons name rest ih =>
    have own := plain name mem_cons_self
    cases rest with
    | nil =>
      have alone := names_cons own (.inl rfl : ([] : Bytes) = [] ∨ _)
      rw [append_nil] at alone
      rw [merge_singleton, alone]
      rfl
    | cons next rest =>
      rw [merge_cons (cons_ne_nil _ _), names_cons own (.inr rfl)]
      rw [ih fun other member => plain other (mem_cons_of_mem _ member)]

lemma foldl_pushName (plain : ∀ name ∈ place, name ≠ current ∧ name ≠ parent) (stack : List Bytes) :
    place.foldl pushName stack = place.reverse ++ stack := by
  induction place generalizing stack with
  | nil => rfl
  | cons name rest ih =>
    obtain ⟨dots, parents⟩ := plain name mem_cons_self
    rw [foldl_cons, pushName, if_neg dots, if_neg parents]
    rw [ih (fun other member => plain other (mem_cons_of_mem _ member)) (name :: stack)]
    simp

lemma plain_normalize {name : Bytes} (member : name ∈ normalize vpath) : Plain name := by
  rcases mem_foldl_pushName (mem_reverse.mp member) with none | ⟨inside, -⟩
  · cases none
  · obtain ⟨fragment, found, rfl⟩ := mem_map.mp inside
    exact plain_fragmentsFuel found

def direct (root trail : Bytes) : Bytes := slash :: (root ++ slash :: trail)

lemma normalize_direct {names : List Bytes} (place : normalize path = root :: names) :
    normalize (direct root (merge names)) = root :: names := by
  have plain : ∀ name ∈ root :: names, Plain name := fun name member => plain_normalize (place.symm ▸ member)
  have other : ∀ name ∈ root :: names, name ≠ current ∧ name ≠ parent := fun name member =>
    (mem_normalize (place.symm ▸ member)).2
  rw [normalize, direct, names_cons (plain root mem_cons_self) (.inr rfl)]
  rw [names_merge fun name member => plain name (mem_cons_of_mem _ member), foldl_pushName other]
  simp

lemma split_direct {names : List Bytes} (place : normalize path = root :: names) :
    getPathRootAndTrail (direct root (merge names)) = some (root, merge names) := by
  have absolute : (direct root (merge names)).head? = some slash := rfl
  rcases split_of_absolute absolute with ⟨-, above⟩ | goes
  · have plain : ∀ name ∈ root :: names, Plain name := fun name member => plain_normalize (place.symm ▸ member)
    rw [direct, names_cons (plain root mem_cons_self) (.inr rfl)] at above
    rw [names_merge fun name member => plain name (mem_cons_of_mem _ member), ← place] at above
    exact absurd rfl (mem_normalize above).2.2
  · rw [goes, normalize_direct place]
    rfl

def SameUpToSlash (first second : Bytes) : Prop :=
  first = second ∨ first = second ++ [slash] ∨ second = first ++ [slash]

lemma merge_ending (kept : List Bytes) (vpath : Bytes) :
    let joined := merge (kept.map (escape · false))
    merge ((kept ++ ending vpath).map (escape · false)) = joined ∨
      merge ((kept ++ ending vpath).map (escape · false)) = joined ++ [slash] := by
  intro joined
  rw [ending]
  split
  · by_cases none : kept = []
    · subst none
      exact .inl rfl
    refine .inr ?_
    rw [map_append, map_singleton, merge_append (by simpa using none)]
    have empty : escape [] false = [] := rfl
    rw [empty, append_nil]
  · exact .inl (by rw [append_nil])

section

variable (host : Host) {root : Directory} (free : ∀ place, table root place ≠ some hostRoot)

include host free

lemma get_same_place
    {first second : Bytes} (absolute : isAbsolute first = true ∧ isAbsolute second = true)
    (same : normalize first = normalize second) :
    SameUpToSlash (get host root first).path (get host root second).path ∧
      (get host root first).outPath = (get host root second).outPath := by
  rw [get_walk host free absolute.1, get_walk host free absolute.2, same]
  refine ⟨?_, ?_⟩
  · have one := @finish_visited root (normalize second).reverse first
    have two := @finish_visited root (normalize second).reverse second
    dsimp only at one two
    rw [one, two]
    split
    · exact .inl rfl
    generalize (normalize second).reverse.reverse.drop _ = kept
    rcases merge_ending kept first with one | one <;> rcases merge_ending kept second with two | two <;>
      rw [one, two]
    · exact .inl rfl
    · exact .inr (.inr (append_assoc ..).symm)
    · exact .inr (.inl (append_assoc ..).symm)
    · exact .inl rfl
  · simp only [Walking.finish]
    split <;> rfl

lemma get_outPath
    (absolute : isAbsolute vpath = true) (opened : (get host root vpath).path ≠ []) :
    (get host root vpath).outPath = some (slash :: merge (normalize vpath)) := by
  rw [get_walk host free absolute] at opened ⊢
  rw [Walking.finish] at opened ⊢
  dsimp only at opened ⊢
  split at opened
  · exact absurd rfl opened
  next mounted =>
    rw [if_neg mounted, reverse_reverse]
    rfl

end

lemma lookup_congr {first second : Bytes} (same : getPathRootAndTrail first = getPathRootAndTrail second)
    (map : MountInfoMap) (dir : Bytes) (fuel : Nat) (noCellFsPath : Bool) :
    lookup map dir fuel first noCellFsPath = lookup map dir fuel second noCellFsPath := by
  cases fuel with
  | zero => rfl
  | succ fuel => rw [lookup, lookup, same]

section

variable (split : getPathRootAndTrail path = some (root, trail)) (device : root ≠ []) (map : MountInfoMap) (dir : Bytes) (fuel : Nat)

include split device map dir fuel

lemma lookup_device {info : MountInfo}
    (found : map.devices (slash :: root) = some info) (own : .reflection ∉ info.mp.flags) :
    lookup map dir (fuel + 1) path false = some ⟨info, some (slash :: root)⟩ := by
  simp [lookup, split, device, found, own]

lemma lookup_none (missing : map.devices (slash :: root) = none) (noCellFsPath : Bool) :
    lookup map dir (fuel + 1) path noCellFsPath = some ⟨map.notFound, none⟩ := by
  simp [lookup, split, device, missing]

end

theorem resolvers_agree (host : Host) (tree : Directory) (free : ∀ place, table tree place ≠ some hostRoot)
    (path root trail : Bytes) (split : getPathRootAndTrail path = some (root, trail)) (device : root ≠ []) :
    SameUpToSlash (get host tree path).path (get host tree (direct root trail)).path ∧
      ((get host tree path).path ≠ [] -> (get host tree path).outPath =
        some (slash :: if trail = [] then root else root ++ slash :: trail)) ∧
      ∀ map dir fuel,
        (∀ noCellFsPath, lookup map dir fuel path noCellFsPath =
          lookup map dir fuel (direct root trail) noCellFsPath) ∧
        (map.devices (slash :: root) = none ->
          lookup map dir (fuel + 1) path false = some ⟨map.notFound, none⟩) ∧
        ∀ info, map.devices (slash :: root) = some info -> .reflection ∉ info.mp.flags ->
          lookup map dir (fuel + 1) path false = some ⟨info, some (slash :: root)⟩ := by
  obtain ⟨absolute, names, place, rfl⟩ := normalize_of_split split device
  have plain : ∀ name ∈ names, Plain name := fun name member =>
    plain_normalize (place.symm ▸ mem_cons_of_mem root member)
  refine ⟨?_, fun opened => ?_, fun map dir fuel => ⟨?_, ?_, ?_⟩⟩
  · exact (get_same_place host free ⟨absolute, rfl⟩ (place.trans (normalize_direct place).symm)).1
  · rw [get_outPath host free absolute opened, place]
    by_cases none : names = []
    · rw [if_pos ((merge_eq_nil plain).mpr none), none, merge_singleton]
    · rw [if_neg (mt (merge_eq_nil plain).mp none), merge_cons none]
  · exact lookup_congr (split.trans (split_direct place).symm) map dir fuel
  · exact fun missing => lookup_none split device map dir fuel missing false
  · exact fun info found own => lookup_device split device map dir fuel found own

-- "/d/./g/../a/" is "/d/a" with a slash at the end.
theorem resolvers_agree_nested :
    getPathRootAndTrail [0x2f, 0x64, 0x2f, 0x2e, 0x2f, 0x67, 0x2f, 0x2e, 0x2e, 0x2f, 0x61, 0x2f] =
        some ([0x64], [0x61]) ∧
      SameUpToSlash
        (get exampleHost (run exampleHost exampleCalls)
          [0x2f, 0x64, 0x2f, 0x2e, 0x2f, 0x67, 0x2f, 0x2e, 0x2e, 0x2f, 0x61, 0x2f]).path
        (get exampleHost (run exampleHost exampleCalls) [0x2f, 0x64, 0x2f, 0x61]).path := by
  have free : ∀ place, table (run exampleHost exampleCalls) place ≠ some hostRoot := by
    rw [table_run]
    refine table_free fun vpath path isDir member => ?_
    simp only [exampleCalls, mem_cons, Call.mount.injEq, not_mem_nil, or_false] at member
    rcases member with ⟨-, rfl, rfl⟩ | ⟨-, rfl, rfl⟩ <;> decide +kernel
  have split : getPathRootAndTrail [0x2f, 0x64, 0x2f, 0x2e, 0x2f, 0x67, 0x2f, 0x2e, 0x2e, 0x2f, 0x61, 0x2f] =
      some ([0x64], [0x61]) := by
    decide +kernel
  exact ⟨split, (resolvers_agree exampleHost (run exampleHost exampleCalls) free _ _ _ split (by decide)).1⟩

end EmuCore.Vfs
