import Mathlib.Tactic

-- Copying blocks of one size between two memories.
namespace Scatter

open List

variable {α : Type} {n : Nat}

def copy (n : Nat) (dst src : Nat -> α) (place : Nat × Nat) : Nat -> α := fun x =>
  if place.1 ≤ x ∧ x < place.1 + n then src (place.2 + (x - place.1)) else dst x

def Apart (n a b : Nat) : Prop := a + n ≤ b ∨ b + n ≤ a

variable {j : Nat}

lemma copy_inside (dst src : Nat -> α) (place : Nat × Nat) (small : j < n) :
    copy n dst src place (place.1 + j) = src (place.2 + j) := by
  rw [copy, if_pos (by omega), Nat.add_sub_cancel_left]

lemma copy_apart (dst src : Nat -> α) (place : Nat × Nat) {a : Nat} (small : j < n) (apart : Apart n place.1 a) :
    copy n dst src place (a + j) = dst (a + j) := by
  unfold Apart at apart
  rw [copy, if_neg (by omega)]

lemma foldl_copy_apart (src : Nat -> α) (places : List (Nat × Nat)) (dst : Nat -> α) {a : Nat} (small : j < n)
    (apart : ∀ place ∈ places, Apart n place.1 a) :
    places.foldl (fun dst place => copy n dst src place) dst (a + j) = dst (a + j) := by
  induction places generalizing dst with
  | nil => rfl
  | cons place places ih =>
    rw [forall_mem_cons] at apart
    rw [foldl_cons, ih _ apart.2, copy_apart _ _ _ small apart.1]

variable {places : List (Nat × Nat)} {place : Nat × Nat}

lemma foldl_copy (src : Nat -> α) (dst : Nat -> α) (apart : places.Pairwise fun a b => Apart n a.1 b.1)
    (member : place ∈ places) (small : j < n) :
    places.foldl (fun dst place => copy n dst src place) dst (place.1 + j) = src (place.2 + j) := by
  induction places generalizing dst with
  | nil => cases member
  | cons first places ih =>
    rw [pairwise_cons] at apart
    rw [foldl_cons]
    rcases mem_cons.mp member with rfl | later
    · have after : ∀ other ∈ places, Apart n other.1 place.1 := fun other inside =>
        (apart.1 other inside).symm
      rw [foldl_copy_apart src places _ small after, copy_inside _ _ _ small]
    · exact ih _ apart.2 later

lemma foldl_copy_same (src : Nat -> α) (dst : Nat -> α) {value : α} (member : place ∈ places)
    (same : ∀ other ∈ places, other.1 = place.1 -> src other.2 = value) :
    places.foldl (fun dst place => copy 1 dst src place) dst place.1 = value := by
  induction places using List.reverseRecOn with
  | nil => cases member
  | append_singleton places last ih =>
    simp only [foldl_append, foldl_cons, foldl_nil]
    by_cases hit : last.1 = place.1
    · have copied := copy_inside (places.foldl (fun dst place => copy 1 dst src place) dst) src last one_pos
      rw [← hit]
      exact copied.trans (same last (by simp) hit)
    have before : place ∈ places := by
      rcases mem_append.mp member with earlier | now
      · exact earlier
      · exact absurd (congrArg Prod.fst (mem_singleton.mp now)).symm hit
    rw [copy, if_neg (by omega)]
    exact ih before fun other present => same other (by simp [present])

lemma foldl_copy_back (image there back : Nat -> α) (first : places.Pairwise fun a b => Apart n a.1 b.1)
    (second : places.Pairwise fun a b => Apart n a.2 b.2) (member : place ∈ places) (small : j < n) :
    (places.map Prod.swap).foldl
        (fun dst place => copy n dst (places.foldl (fun dst place => copy n dst image place) there) place) back
        (place.2 + j) = image (place.2 + j) := by
  have swapped : (places.map Prod.swap).Pairwise fun a b => Apart n a.1 b.1 := pairwise_map.mpr second
  have there := foldl_copy image there first member small
  rw [← there]
  exact foldl_copy _ back swapped (mem_map_of_mem member) small

end Scatter
