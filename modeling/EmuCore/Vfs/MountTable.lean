import EmuCore.Vfs.EscapeRoundTrip
import EmuCore.Vfs.Mount

namespace EmuCore.Vfs

open List

/- Normal form of a path: no dots and no empty names, and nothing above the root. -/

def pushName (stack : List Bytes) (name : Bytes) : List Bytes :=
  if name = current then stack else if name = parent then stack.tail else name :: stack

def normalize (vpath : Bytes) : List Bytes := ((names vpath).foldl pushName []).reverse

-- What a client sees of the mounts: the host path under a place.
abbrev Table := List Bytes -> Option Bytes

def nonempty (path : Bytes) : Option Bytes := if path = [] then none else some path

def table (root : Directory) : Table := fun place => (root.valueAt place).bind nonempty

def Call.record (host : Host) (mounted : Table) : Call -> Table
  | .mount vpath path isDir =>
    if isAbsolute vpath then Function.update mounted (normalize vpath) (nonempty (hostPath host path isDir))
    else mounted
  | .unmount vpath => fun place => if names vpath ≠ [] ∧ names vpath <+: place then none else mounted place

def mounts (host : Host) (calls : List Call) : Table := calls.foldl (Call.record host) fun _ => none

lemma pushName_reverse (stack : List Bytes) (name : Bytes) :
    (pushName stack name).reverse =
      if name = current then stack.reverse
      else if name = parent then stack.reverse.dropLast else stack.reverse ++ [name] := by
  rw [pushName]
  split
  · rfl
  · split
    · rw [dropLast_reverse]
    · rw [reverse_cons]

lemma mounting_step {st : Mounting} (present : (st.root.valueAt st.place).isSome) (name : Bytes) :
    ((st.step name).root.valueAt (st.step name).place).isSome ∧ table (st.step name).root = table st.root := by
  rw [Mounting.step]
  split
  · exact ⟨present, rfl⟩
  split
  next =>
    obtain ⟨last, same⟩ := dropLast_prefix st.place
    exact ⟨Trie.isSome_valueAt_append (same.symm ▸ present), rfl⟩
  have values := Trie.valueAt_findOrAdd present name []
  refine ⟨?_, ?_⟩
  · rw [values, if_pos rfl]
    rfl
  funext other
  simp only [table, values]
  split
  next =>
    cases st.root.valueAt other with
    | none | some value => rfl
  next => rfl

lemma mounting_names (path : List Bytes) {st : Mounting} {stack : List Bytes}
    (place : st.place = stack.reverse) (present : (st.root.valueAt st.place).isSome) :
    let after := path.foldl Mounting.step st
    after.place = (path.foldl pushName stack).reverse ∧ (after.root.valueAt after.place).isSome ∧
      table after.root = table st.root := by
  induction path generalizing st stack with
  | nil => exact ⟨place, present, rfl⟩
  | cons name path ih =>
    obtain ⟨next, same⟩ := mounting_step present name
    have aligned : (st.step name).place = (pushName stack name).reverse := by
      rw [pushName_reverse, ← place, Mounting.step]
      split
      · rfl
      · split <;> rfl
    have rest := ih aligned next
    exact ⟨rest.1, rest.2.1, rest.2.2.trans same⟩

lemma table_mount (host : Host) (root : Directory) (vpath path : Bytes) (isDir : Bool) :
    table (mount host root vpath path isDir).2 =
      (Call.mount vpath path isDir).record host (table root) := by
  rw [mount, Call.record]
  by_cases absolute : isAbsolute vpath = true
  · have start : (⟨root, []⟩ : Mounting).place = List.reverse [] := rfl
    obtain ⟨place, present, same⟩ := mounting_names (names vpath) start rfl
    rw [if_neg (by simp [absolute]), if_pos absolute, ← same]
    funext other
    have values := Trie.valueAt_setValue present (hostPath host path isDir) other
    simp only [table, values, Function.update_apply]
    rw [place, normalize]
    split <;> rfl
  · rw [if_pos (by simp [absolute]), if_neg absolute]

lemma table_unmount (host : Host) (root : Directory) (vpath : Bytes) :
    table (unmount root vpath).2 = (Call.unmount vpath).record host (table root) := by
  rw [unmount, Call.record]
  split
  next none => simp [none]
  next some =>
    funext other
    by_cases under : names vpath <+: other
    · obtain ⟨rest, rfl⟩ := under
      simp only [table, Trie.valueAt_prune_under some]
      rw [if_pos ⟨some, prefix_append _ _⟩]
      rfl
    · simp only [table, Trie.valueAt_prune_other under]
      rw [if_neg fun both => under both.2]

lemma table_run (host : Host) (calls : List Call) : table (run host calls) = mounts host calls := by
  have step : ∀ (calls : List Call) (root : Directory),
      table (calls.foldl (Call.run host) root) = calls.foldl (Call.record host) (table root) := by
    intro calls
    induction calls with
    | nil => exact fun root => rfl
    | cons call calls ih =>
      intro root
      rw [foldl_cons, foldl_cons, ih]
      congr 1
      cases call with
      | mount vpath path isDir => exact table_mount host root vpath path isDir
      | unmount vpath => exact table_unmount host root vpath
  have empty : table (.node [] []) = fun _ => none := by
    funext place
    cases place <;> rfl
  rw [run, mounts, step, empty]

end EmuCore.Vfs
