import Mathlib.Data.List.TakeWhile
import EmuCore.Vfs.MountTable

namespace EmuCore.Vfs

open List Option

variable {vpath : Bytes}

lemma mem_fragmentsFuel {fuel : Nat} {fragment : Bytes × Bytes} (member : fragment ∈ fragmentsFuel fuel vpath) :
    slash ∉ fragment.1 := by
  induction fuel generalizing vpath with
  | zero => cases member
  | succ fuel ih =>
    rw [fragmentsFuel] at member
    dsimp only at member
    split at member
    · cases member
    rcases mem_cons.mp member with rfl | later
    · intro inside
      have := mem_takeWhile_imp inside
      simp [isSlash] at this
    · exact ih later

variable {name : Bytes} {stack : List Bytes}

lemma mem_foldl_pushName {path : List Bytes} (member : name ∈ path.foldl pushName stack) :
    name ∈ stack ∨ name ∈ path ∧ name ≠ current ∧ name ≠ parent := by
  induction path generalizing stack with
  | nil => exact .inl member
  | cons next path ih =>
    rcases ih member with old | ⟨inside, plain⟩
    · rw [pushName] at old
      split at old
      · exact .inl old
      split at old
      · exact .inl (mem_of_mem_tail old)
      next dots parents =>
        rcases mem_cons.mp old with rfl | below
        · exact .inr ⟨mem_cons_self, dots, parents⟩
        · exact .inl below
    · exact .inr ⟨mem_cons_of_mem next inside, plain⟩

lemma mem_normalize (member : name ∈ normalize vpath) :
    slash ∉ name ∧ name ≠ current ∧ name ≠ parent := by
  rcases mem_foldl_pushName (mem_reverse.mp member) with none | ⟨inside, plain⟩
  · cases none
  · obtain ⟨fragment, found, rfl⟩ := List.mem_map.mp inside
    exact ⟨mem_fragmentsFuel found, plain⟩

lemma slash_not_mem_percent (b : UInt8) : slash ∉ percent b := by
  refine forall_byte (p := fun b => slash ∉ percent b) ?_ b
  decide +kernel

lemma slash_not_mem_escapeChar {c : UInt8} (other : c ≠ slash) (escapeSlash : Bool) (rest : Bytes) :
    slash ∉ escapeChar escapeSlash c rest := by
  by_cases ascii : c < 0x80
  · rcases escapeChar_ascii escapeSlash ascii rest with ⟨plain, -⟩ | ⟨third, -, wide, inside, -⟩ | ⟨bar, -⟩
    · rw [plain]
      simpa using other.symm
    · rw [wide]
      have : third ≠ slash := by
        rintro rfl
        exact absurd inside (by decide)
      simp [fullWidth, slash] at this ⊢
      exact fun same => this same.symm
    · rw [bar]
      decide
  · by_cases narrow : c = 0xef
    · subst narrow
      have cut : escapeChar escapeSlash 0xef rest =
          if isFullWidth (getChar rest 0) (getChar rest 1) then quote ++ [0xef] else [0xef] := rfl
      rw [cut]
      split <;> decide
    · rw [escapeChar_high (UInt8.not_lt.mp ascii) narrow]
      simpa using other.symm

lemma slash_not_mem_escapeFrom {escapeSlash : Bool} {left : Nat} (plain : slash ∉ name) :
    slash ∉ escapeFrom escapeSlash left name := by
  fun_induction escapeFrom escapeSlash left name with
  | case1 => exact not_mem_nil
  | case4 _ b rest _ _ _ _ ih =>
    exact fun member => (mem_append.mp member).elim (slash_not_mem_percent b) (ih (not_or.mp (mem_cons.not.mp plain)).2)
  | case2 _ b rest _ _ ih | case3 _ b rest _ _ _ _ ih | case5 _ b rest _ ih =>
    rw [mem_cons, not_or] at plain
    have first := slash_not_mem_escapeChar (Ne.symm plain.1) escapeSlash rest
    exact fun member => (mem_append.mp member).elim first (ih plain.2)

lemma slash_not_mem_escape (plain : slash ∉ name) (escapeSlash : Bool) :
    slash ∉ escape name escapeSlash := by
  rw [escape]
  split
  · exact plain
  · refine fun member => (mem_append.mp member).elim ?_ (slash_not_mem_escapeFrom plain)
    split <;> decide

lemma escape_ne_parent (other : name ≠ parent) : escape name false ≠ parent := by
  intro same
  have back := unescape_escape name false
  rw [same] at back
  refine other ?_
  have kept : unescape parent = parent := rfl
  simpa using back.symm.trans kept

def visited (root : Directory) : List Bytes -> List (Option Directory)
  | [] => [some root]
  | name :: below => root.find (name :: below).reverse :: visited root below

lemma length_visited (root : Directory) (stack : List Bytes) :
    (visited root stack).length = stack.length + 1 := by
  induction stack with
  | nil => rfl
  | cons name below ih => rw [visited, length_cons, ih, length_cons]

lemma headD_visited (root : Directory) (stack : List Bytes) :
    (visited root stack).headD none = root.find stack.reverse := by
  cases stack <;> rfl

variable {root : Directory}

section

variable (host : Host) (free : ∀ place, table root place ≠ some hostRoot)

include host free

lemma walking_step (stack : List Bytes)
    (fragment : Bytes × Bytes) :
    Walking.step host ⟨visited root stack, stack⟩ fragment =
      .ok ⟨visited root (pushName stack fragment.1), pushName stack fragment.1⟩ := by
  rw [Walking.step, pushName]
  split
  · rfl
  split
  · cases stack with
    | nil => rfl
    | cons name below => rw [if_neg (by simp [length_visited])]; rfl
  have next : root.find (fragment.1 :: stack).reverse =
      (root.find stack.reverse).bind fun last => Trie.lookup fragment.1 last.children := by
    rw [reverse_cons, Trie.find_append]
    cases root.find stack.reverse with
    | none => rfl
    | some last => simp [Trie.find]
  rw [Walking.enter, headD_visited, ← next, visited]
  cases found : root.find (fragment.1 :: stack).reverse with
  | none => rfl
  | some dir =>
    dsimp only
    rw [if_neg]
    intro whole
    refine free (fragment.1 :: stack).reverse ?_
    rw [table, Trie.valueAt, found, map_some, whole]
    rfl

lemma walking_fragments
    (path : List (Bytes × Bytes)) (stack : List Bytes) :
    path.foldlM (Walking.step host) ⟨visited root stack, stack⟩ =
      .ok ⟨visited root ((path.map (·.1)).foldl pushName stack), (path.map (·.1)).foldl pushName stack⟩ := by
  induction path generalizing stack with
  | nil => rfl
  | cons fragment path ih =>
    rw [foldlM_cons, walking_step host free]
    exact ih _

lemma get_walk (absolute : isAbsolute vpath = true) :
    get host root vpath =
      Walking.finish ⟨visited root (normalize vpath).reverse, (normalize vpath).reverse⟩ (remains vpath) := by
  have walk := walking_fragments host free (fragments vpath) []
  have start : visited root [] = [some root] := rfl
  rw [start] at walk
  have place : (normalize vpath).reverse = ((fragments vpath).map (·.1)).foldl pushName [] :=
    reverse_reverse _
  rw [place]
  simp only [get, absolute, walk]
  rfl

end

variable {place : List Bytes} {dir : Directory}

lemma table_of_find (found : root.find place = some dir) : table root place = nonempty dir.value := by
  rw [table, Trie.valueAt, found, map_some, bind_some]

lemma find_of_table {base : Bytes} (mounted : table root place = some base) :
    ∃ dir, root.find place = some dir ∧ dir.value = base ∧ base ≠ [] := by
  cases found : root.find place with
  | none => simp [table, Trie.valueAt, found] at mounted
  | some dir =>
    rw [table_of_find found] at mounted
    obtain ⟨full, ⟨⟩⟩ := ite_none_left_eq_some.mp mounted
    exact ⟨dir, rfl, rfl, full⟩

lemma value_of_unmounted (unmounted : table root place = none) (found : root.find place = some dir) :
    dir.value = [] := by
  simpa [table_of_find found, nonempty] using unmounted

lemma lastMounted_some (alone : Bool) {k : Nat} {base : Bytes} (within : k ≤ stack.length)
    (mounted : table root (stack.reverse.take k) = some base)
    (deeper : ∀ j, k < j -> j ≤ stack.length -> table root (stack.reverse.take j) = none)
    (only : alone = true -> stack = []) :
    ∃ dir, lastMounted alone (visited root stack) = some (dir, k) ∧ dir.value = base ∧ base ≠ [] := by
  induction stack with
  | nil =>
    obtain rfl := Nat.le_zero.mp within
    obtain ⟨dir, found, value, full⟩ := find_of_table mounted
    cases found
    refine ⟨root, ?_, value, full⟩
    simp [visited, lastMounted, value, full]
  | cons name below ih =>
    have single : alone = false := Bool.eq_false_iff.mpr fun yes => cons_ne_nil _ _ (only yes)
    subst single
    by_cases whole : k = (name :: below).length
    · subst whole
      rw [take_of_length_le (by simp)] at mounted
      obtain ⟨dir, found, value, full⟩ := find_of_table mounted
      refine ⟨dir, ?_, value, full⟩
      rw [visited, found]
      simp [lastMounted, value, full, length_visited]
    have inside : k ≤ below.length := by
      simp only [length_cons] at within whole
      omega
    have prefixes : ∀ j ≤ below.length, (name :: below).reverse.take j = below.reverse.take j := by
      intro j small
      rw [reverse_cons, take_append_of_le_length (by simpa using small)]
    have top := deeper (name :: below).length (by simp; omega) le_rfl
    rw [take_of_length_le (by simp)] at top
    obtain ⟨dir, found, value⟩ := ih inside (prefixes k inside ▸ mounted)
      (fun j more small => prefixes j small ▸ deeper j more (by simp; omega)) (by simp)
    refine ⟨dir, ?_, value⟩
    rw [visited, ← found]
    cases known : root.find (name :: below).reverse with
    | none => rfl
    | some last => simp [lastMounted, value_of_unmounted top known]

lemma lastMounted_none (alone : Bool) (unmounted : ∀ k ≤ stack.length, table root (stack.reverse.take k) = none) :
    (lastMounted alone (visited root stack)).elim [] (·.1.value) = [] := by
  induction stack with
  | nil =>
    have value := value_of_unmounted (unmounted 0 le_rfl) rfl
    cases alone <;> simp [visited, lastMounted, value]
  | cons name below ih =>
    have prefixes : ∀ k ≤ below.length, table root (below.reverse.take k) = none := by
      intro k small
      have := unmounted k (Nat.le_succ_of_le small)
      rwa [reverse_cons, take_append_of_le_length (by simpa using small)] at this
    have top := unmounted (name :: below).length le_rfl
    rw [take_of_length_le (by simp)] at top
    rw [visited]
    cases known : root.find (name :: below).reverse with
    | none => exact ih prefixes
    | some last =>
      have value := value_of_unmounted top known
      cases alone with
      | true => simp [lastMounted, value]
      | false => simpa [lastMounted, value] using ih prefixes

lemma fragmentsFuel_remains {fuel : Nat} (enough : vpath.length ≤ fuel) :
    ((fragmentsFuel fuel vpath).getLast?.map (·.2)).getD vpath ≠ [] ↔ vpath.getLast? = some slash := by
  induction fuel generalizing vpath with
  | zero =>
    obtain rfl := length_eq_zero_iff.mp (Nat.le_zero.mp enough)
    simp [fragmentsFuel]
  | succ fuel ih =>
    rw [fragmentsFuel]
    dsimp only
    split
    next none =>
      have slashes := dropWhile_eq_nil_iff.mp none
      cases vpath using List.reverseRecOn with
      | nil => simp
      | append_singleton start last =>
        have := slashes last (by simp)
        simpa [isSlash] using this
    next full =>
      generalize left : (vpath.dropWhile isSlash).dropWhile (!isSlash ·) = rest
      generalize word : (vpath.dropWhile isSlash).takeWhile (!isSlash ·) = name
      have parts : vpath = vpath.takeWhile isSlash ++ (name ++ rest) := by
        rw [← left, ← word, takeWhile_append_dropWhile, takeWhile_append_dropWhile]
      have plain : ∀ b ∈ name, b ≠ slash := by
        intro b inside
        rw [← word] at inside
        simpa [isSlash] using mem_takeWhile_imp inside
      have some_name : name ≠ [] := by
        have first := head_dropWhile_not isSlash full
        rw [← word, ← cons_head_tail full, takeWhile_cons, first]
        exact cons_ne_nil _ _
      have shorter : rest.length ≤ fuel := by
        have := congrArg List.length parts
        have := length_pos_iff.mpr some_name
        simp only [length_append] at *
        omega
      have end_name : name.getLast? ≠ some slash := fun last =>
        plain slash (mem_of_getLast? last) rfl
      have tail : (((name, rest) :: fragmentsFuel fuel rest).getLast?.map (·.2)).getD vpath =
          ((fragmentsFuel fuel rest).getLast?.map (·.2)).getD rest := by
        rw [getLast?_cons]
        cases (fragmentsFuel fuel rest).getLast? <;> rfl
      rw [tail, ih shorter, parts, getLast?_append, getLast?_append]
      cases known : rest.getLast? with
      | some last => rfl
      | none =>
        refine iff_of_false (by simp) ?_
        cases final : name.getLast? with
        | none => exact absurd (getLast?_eq_none_iff.mp final) some_name
        | some last => simpa [final] using end_name

def ending (vpath : Bytes) : List Bytes := if vpath.getLast? = some slash then [[]] else []

lemma finish_visited (stack : List Bytes) (vpath : Bytes) :
    let found := lastMounted (stack.length = 0) (visited root stack)
    let base := found.elim [] (·.1.value)
    (Walking.finish ⟨visited root stack, stack⟩ (remains vpath)).path =
      if base = [] then []
      else base ++ merge ((stack.reverse.drop (found.elim 0 (·.2)) ++ ending vpath).map (escape · false)) := by
  have same : decide ((visited root stack).length = 1) = decide (stack.length = 0) := by
    rw [length_visited]
    simp
  have trailing : remains vpath ≠ [] ↔ vpath.getLast? = some slash := fragmentsFuel_remains le_rfl
  intro found base
  rw [Walking.finish]
  simp only [same]
  split
  · rfl
  · by_cases last : vpath.getLast? = some slash
    · rw [if_pos (trailing.mpr last), ending, if_pos last]
    · rw [if_neg (mt trailing.mp last), ending, if_neg last, append_nil]

lemma table_free {host : Host} {calls : List Call}
    (free : ∀ vpath path isDir, Call.mount vpath path isDir ∈ calls -> hostPath host path isDir ≠ hostRoot)
    (place : List Bytes) : mounts host calls place ≠ some hostRoot := by
  have step : ∀ (calls : List Call) (mounted : Table), (∀ place, mounted place ≠ some hostRoot) ->
      (∀ vpath path isDir, Call.mount vpath path isDir ∈ calls -> hostPath host path isDir ≠ hostRoot) ->
      ∀ place, calls.foldl (Call.record host) mounted place ≠ some hostRoot := by
    intro calls
    induction calls with
    | nil => exact fun mounted clear _ => clear
    | cons call calls ih =>
      intro mounted clear free
      refine ih _ (fun place => ?_) fun vpath path isDir member =>
        free vpath path isDir (mem_cons_of_mem call member)
      cases call with
      | mount vpath path isDir =>
        have own := free vpath path isDir mem_cons_self
        rw [Call.record]
        split
        · rw [Function.update_apply]
          split
          · rw [nonempty]
            split
            · simp
            · simpa using own
          · exact clear place
        · exact clear place
      | unmount vpath =>
        rw [Call.record]
        dsimp only
        split
        · simp
        · exact clear place
  exact step calls _ (by simp) free place

theorem get_resolves (host : Host) (calls : List Call)
    (free : ∀ vpath path isDir, Call.mount vpath path isDir ∈ calls -> hostPath host path isDir ≠ hostRoot)
    (vpath : Bytes) (absolute : isAbsolute vpath = true) :
    let place := normalize vpath
    let mounted := mounts host calls
    let resolved := (get host (run host calls) vpath).path
    ((∀ k ≤ place.length, mounted (place.take k) = none) -> resolved = []) ∧
      (∀ k base, k ≤ place.length -> mounted (place.take k) = some base ->
        (∀ j, k < j -> j ≤ place.length -> mounted (place.take j) = none) ->
        resolved = base ++ merge ((place.drop k ++ ending vpath).map (escape · false))) ∧
      ∀ name ∈ place, slash ∉ escape name false ∧ escape name false ≠ parent := by
  intro place mounted resolved
  have clear : ∀ place, table (run host calls) place ≠ some hostRoot := by
    rw [table_run]
    exact table_free free
  have value : resolved =
      (Walking.finish ⟨visited (run host calls) place.reverse, place.reverse⟩ (remains vpath)).path :=
    congrArg Found.path (get_walk host clear absolute)
  generalize stacked : place.reverse = stack at value
  have reversed : place = stack.reverse := by
    rw [← stacked, reverse_reverse]
  rw [finish_visited] at value
  have known : table (run host calls) = mounted := table_run host calls
  refine ⟨fun unmounted => ?_, fun k base within here deeper => ?_, fun name member => ?_⟩
  · rw [reversed, length_reverse, ← known] at unmounted
    rw [value, if_pos (lastMounted_none _ unmounted)]
  · rw [reversed, ← known] at here deeper
    rw [reversed, length_reverse] at within
    rw [length_reverse] at deeper
    obtain ⟨dir, found, path, full⟩ := lastMounted_some (decide (stack.length = 0)) within here deeper (by simp)
    simp only [found, elim_some, path, if_neg full] at value
    rw [value, reversed]
  · obtain ⟨plain, -, other⟩ := mem_normalize member
    exact ⟨slash_not_mem_escape plain false, escape_ne_parent other⟩

def exampleHost : Host := ⟨id, []⟩

-- "/d" is "/h" and "/d/g" is "/g".
def exampleCalls : List Call :=
  [.mount [0x2f, 0x64] [0x2f, 0x68] true, .mount [0x2f, 0x64, 0x2f, 0x67] [0x2f, 0x67] true]

-- "/d/g/../a" is "/h/a".
theorem get_resolves_nested : (get exampleHost (run exampleHost exampleCalls)
    [0x2f, 0x64, 0x2f, 0x67, 0x2f, 0x2e, 0x2e, 0x2f, 0x61]).path = [0x2f, 0x68, 0x2f, 0x61] := by
  have free : ∀ vpath path isDir, Call.mount vpath path isDir ∈ exampleCalls ->
      hostPath exampleHost path isDir ≠ hostRoot := by
    intro vpath path isDir member
    simp only [exampleCalls, mem_cons, Call.mount.injEq, not_mem_nil, or_false] at member
    rcases member with ⟨-, rfl, rfl⟩ | ⟨-, rfl, rfl⟩ <;> decide +kernel
  have deeper : ∀ j, 1 < j -> j ≤ (normalize [0x2f, 0x64, 0x2f, 0x67, 0x2f, 0x2e, 0x2e, 0x2f, 0x61]).length ->
      mounts exampleHost exampleCalls
        ((normalize [0x2f, 0x64, 0x2f, 0x67, 0x2f, 0x2e, 0x2e, 0x2f, 0x61]).take j) = none := by
    intro j more small
    obtain rfl : j = 2 := le_antisymm small more
    decide +kernel
  have resolved := (get_resolves exampleHost exampleCalls free
    [0x2f, 0x64, 0x2f, 0x67, 0x2f, 0x2e, 0x2e, 0x2f, 0x61] rfl).2.1 1 [0x2f, 0x68, 0x2f]
    (by decide +kernel) (by decide +kernel) deeper
  exact resolved.trans (by decide +kernel)

-- The slash at the end of "/d/a/" is not dropped with the empty name after it.
theorem get_keeps_slash : mounts exampleHost exampleCalls ((normalize [0x2f, 0x64, 0x2f, 0x61, 0x2f]).take 1) =
      some [0x2f, 0x68, 0x2f] ∧
    mounts exampleHost exampleCalls (normalize [0x2f, 0x64, 0x2f, 0x61, 0x2f]) = none ∧
    (get exampleHost (run exampleHost exampleCalls) [0x2f, 0x64, 0x2f, 0x61, 0x2f]).path ≠
      [0x2f, 0x68, 0x2f] ++ merge (((normalize [0x2f, 0x64, 0x2f, 0x61, 0x2f]).drop 1).map (escape · false)) := by
  decide +kernel

end EmuCore.Vfs
