import Mathlib.Tactic

-- A depth-first walk that gives up at the first state that cannot be expanded. Fuel bounds the depth of the calls.
namespace DepthFirst

open List Option

variable {σ : Type}

def all (visit : σ -> Option Bool) : List σ -> Option Bool
  | [] => some true
  | s :: rest => (visit s).bind fun done => if done then all visit rest else some false

variable (expand : σ -> Option (List σ))

def visit : Nat -> σ -> Option Bool
  | 0, _ => none
  | fuel + 1, s => (expand s).elim (some false) (all (visit fuel))

def Returns (s : σ) : Prop := ∃ fuel, (visit expand fuel s).isSome

def Succeeds (s : σ) : Prop := ∃ fuel, visit expand fuel s = some true

def Enters (s t : σ) : Prop :=
  ∃ before after, expand s = some (before ++ t :: after) ∧ ∀ other ∈ before, Succeeds expand other

variable {expand}

variable {result : Bool}

lemma all_mono {visit more : σ -> Option Bool} {todo : List σ}
    (grows : ∀ s ∈ todo, ∀ b, visit s = some b -> more s = some b) (done : all visit todo = some result) :
    all more todo = some result := by
  induction todo with
  | nil => exact done
  | cons s rest ih =>
    rw [forall_mem_cons] at grows
    cases first : visit s with
    | none => simp [all, first] at done
    | some b =>
      rw [all, first, bind_some] at done
      rw [all, grows.1 b first, bind_some]
      split at done
      next => rw [if_pos ‹_›]; exact ih grows.2 done
      next => rwa [if_neg ‹_›]

variable {s : σ} {fuel : Nat}

lemma visit_succ (done : visit expand fuel s = some result) :
    visit expand (fuel + 1) s = some result := by
  induction fuel generalizing s result with
  | zero => cases done
  | succ fuel ih =>
    rw [visit] at done ⊢
    cases next : expand s with
    | none => rwa [next] at done
    | some todo =>
      rw [next, elim_some] at done
      exact all_mono (fun s _ b first => ih first) done

lemma visit_mono {more : Nat} (le : fuel ≤ more) (done : visit expand fuel s = some result) :
    visit expand more s = some result := by
  induction le with
  | refl => exact done
  | step _ ih => exact visit_succ ih

lemma visit_unique {other : Nat} {a b : Bool} (one : visit expand fuel s = some a)
    (two : visit expand other s = some b) : a = b := by
  have first := visit_mono (le_max_left fuel other) one
  have second := visit_mono (le_max_right fuel other) two
  exact Option.some.inj (first.symm.trans second)

lemma all_reaches {before after : List σ} {t : σ}
    (finished : (all (visit expand fuel) (before ++ t :: after)).isSome)
    (succeeded : ∀ other ∈ before, Succeeds expand other) : (visit expand fuel t).isSome := by
  induction before with
  | nil =>
    rw [nil_append, all] at finished
    cases first : visit expand fuel t with
    | none => simp [first] at finished
    | some b => rfl
  | cons s before ih =>
    rw [forall_mem_cons] at succeeded
    rw [cons_append, all] at finished
    cases first : visit expand fuel s with
    | none => simp [first] at finished
    | some b =>
      obtain ⟨other, success⟩ := succeeded.1
      rw [first, visit_unique first success] at finished
      exact ih finished succeeded.2

lemma enters_shallower {t : σ} (finished : (visit expand fuel s).isSome) (enters : Enters expand s t) :
    ∃ less < fuel, (visit expand less t).isSome := by
  obtain ⟨before, after, next, succeeded⟩ := enters
  cases fuel with
  | zero => cases finished
  | succ fuel =>
    rw [visit, next, elim_some] at finished
    exact ⟨fuel, Nat.lt_succ_self fuel, all_reaches finished succeeded⟩

lemma transGen_shallower {t : σ} (finished : (visit expand fuel s).isSome)
    (path : Relation.TransGen (Enters expand) s t) : ∃ less < fuel, (visit expand less t).isSome := by
  induction path with
  | single step => exact enters_shallower finished step
  | tail _ step ih =>
    obtain ⟨middle, shallower, done⟩ := ih
    obtain ⟨less, deeper, there⟩ := enters_shallower done step
    exact ⟨less, deeper.trans shallower, there⟩

lemma not_returns_of_cycle {t : σ} (path : Relation.ReflTransGen (Enters expand) s t)
    (cycle : Relation.TransGen (Enters expand) t t) : ¬Returns expand s := by
  rintro ⟨fuel, finished⟩
  have never : ∀ fuel, ¬(visit expand fuel t).isSome := by
    intro fuel
    induction fuel using Nat.strong_induction_on with
    | _ fuel ih =>
      intro done
      obtain ⟨less, shallower, again⟩ := transGen_shallower done cycle
      exact ih less shallower again
  rcases Relation.reflTransGen_iff_eq_or_transGen.mp path with same | some_path
  · exact never fuel (same ▸ finished)
  · obtain ⟨less, -, done⟩ := transGen_shallower finished some_path
    exact never less done

lemma all_returns {before todo : List σ} (next : expand s = some (before ++ todo))
    (succeeded : ∀ other ∈ before, Succeeds expand other) (deeper : ∀ t, Enters expand s t -> Returns expand t) :
    ∃ fuel, (all (visit expand fuel) todo).isSome := by
  induction todo generalizing before with
  | nil => exact ⟨0, rfl⟩
  | cons t rest ih =>
    obtain ⟨fuel, finished⟩ := deeper t ⟨before, rest, next, succeeded⟩
    obtain ⟨done, result⟩ := isSome_iff_exists.mp finished
    cases done with
    | false => exact ⟨fuel, by rw [all, result]; rfl⟩
    | true =>
      have split : expand s = some ((before ++ [t]) ++ rest) := by rw [next, append_assoc]; rfl
      obtain ⟨more, rest_done⟩ := ih split fun other member => by
        rcases mem_append.mp member with old | new
        · exact succeeded other old
        · rw [mem_singleton.mp new]
          exact ⟨fuel, result⟩
      obtain ⟨b, rest_result⟩ := isSome_iff_exists.mp rest_done
      refine ⟨max fuel more, ?_⟩
      have first := visit_mono (le_max_left fuel more) result
      have later := all_mono (fun s _ b one => visit_mono (le_max_right fuel more) one) rest_result
      rw [all, first, bind_some, if_pos rfl, later]
      rfl

lemma returns_of_deeper (deeper : ∀ t, Enters expand s t -> Returns expand t) : Returns expand s := by
  cases next : expand s with
  | none => exact ⟨1, by rw [visit, next]; rfl⟩
  | some todo =>
    have start : expand s = some ([] ++ todo) := next
    obtain ⟨fuel, finished⟩ := all_returns start (by simp) deeper
    exact ⟨fuel + 1, by rwa [visit, next]⟩

lemma returns_of_acyclic (finite : {t | Relation.ReflTransGen (Enters expand) s t}.Finite)
    (acyclic : ∀ t, Relation.ReflTransGen (Enters expand) s t -> ¬Relation.TransGen (Enters expand) t t) :
    Returns expand s := by
  let Reached := {t // Relation.ReflTransGen (Enters expand) s t}
  have few : Finite Reached := finite
  let deeper : Reached -> Reached -> Prop := fun t u => Relation.TransGen (Enters expand) u.1 t.1
  have irreflexive : Std.Irrefl deeper := ⟨fun t => acyclic t.1 t.2⟩
  have transitive : IsTrans Reached deeper := ⟨fun a b c one two => two.trans one⟩
  have founded : WellFounded deeper := Finite.wellFounded_of_trans_of_irrefl deeper
  have every : ∀ t : Reached, Returns expand t.1 := by
    intro t
    induction t using founded.induction with
    | _ t ih =>
      refine returns_of_deeper fun u enters => ?_
      exact ih ⟨u, t.2.tail enters⟩ (.single enters)
  exact every ⟨s, .refl⟩

lemma returns_iff_acyclic (finite : {t | Relation.ReflTransGen (Enters expand) s t}.Finite) :
    Returns expand s ↔
      ∀ t, Relation.ReflTransGen (Enters expand) s t -> ¬Relation.TransGen (Enters expand) t t :=
  ⟨fun returns _ path cycle => not_returns_of_cycle path cycle returns, returns_of_acyclic finite⟩

end DepthFirst
