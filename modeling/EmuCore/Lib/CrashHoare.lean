import Mathlib.Tactic

-- Programs over a persistent state that can be cut off before any of their operations. A schedule says how many
-- operations are made and which of those that can fail do so.
namespace CrashHoare

variable {σ ε α β : Type}

-- There is no value after a cut. The failures are named by the places where they happened.
structure Outcome (σ ε α : Type) where
  state : σ
  failed : List ε
  value : Option α
  rest : List Bool

def Prog (σ ε α : Type) : Type := List Bool -> σ -> Outcome σ ε α

def Outcome.andThen (o : Outcome σ ε α) (next : α -> Prog σ ε β) : Outcome σ ε β :=
  match o.value with
  | none => ⟨o.state, o.failed, none, o.rest⟩
  | some a =>
    let later := next a o.rest o.state
    { later with failed := o.failed ++ later.failed }

instance progMonad : Monad (Prog σ ε) where
  pure a := fun schedule s => ⟨s, [], some a, schedule⟩
  bind p next := fun schedule s => (p schedule s).andThen next

def observe (ask : σ -> α) : Prog σ ε α := fun schedule s => ⟨s, [], some (ask s), schedule⟩

def perform (act : σ -> α × σ) : Prog σ ε α
  | [], s => ⟨s, [], none, []⟩
  | _ :: rest, s => ⟨(act s).2, [], some (act s).1, rest⟩

def attempt (place : ε) (act : σ -> Bool × σ) : Prog σ ε Bool
  | [], s => ⟨s, [], none, []⟩
  | true :: rest, s => ⟨(act s).2, [], some (act s).1, rest⟩
  | false :: rest, s => ⟨s, [place], some false, rest⟩

def Outcome.Meets (o : Outcome σ ε α) (crash : σ -> Prop) (post : α -> σ -> Prop) : Prop :=
  match o.value with
  | none => crash o.state
  | some a => post a o.state

-- From any state in the precondition: if only the allowed places fail, a cut leaves a state in the crash condition,
-- and the end is in the postcondition.
def Triple (allowed : ε -> Prop) (crash pre : σ -> Prop) (p : Prog σ ε α) (post : α -> σ -> Prop) : Prop :=
  ∀ schedule s, pre s -> (∀ place ∈ (p schedule s).failed, allowed place) -> (p schedule s).Meets crash post

variable {post : α -> σ -> Prop}

section Rules

variable {allowed : ε -> Prop} {crash pre : σ -> Prop}

lemma Triple.pure {a : α} (holds : ∀ s, pre s -> post a s) :
    Triple allowed crash pre (Pure.pure a : Prog σ ε α) post :=
  fun _ s before _ => holds s before

lemma Triple.observe {ask : σ -> α} : Triple allowed crash pre (CrashHoare.observe ask : Prog σ ε α)
    fun a s => pre s ∧ a = ask s :=
  fun _ _ before _ => ⟨before, rfl⟩

lemma Triple.perform {act : σ -> α × σ} (cut : ∀ s, pre s -> crash s) (holds : ∀ s, pre s -> post (act s).1 (act s).2) :
    Triple allowed crash pre (CrashHoare.perform act : Prog σ ε α) post := by
  intro schedule s before _
  cases schedule with
  | nil => exact cut s before
  | cons _ _ => exact holds s before

lemma Triple.attempt {place : ε} {act : σ -> Bool × σ} {post : Bool -> σ -> Prop} (cut : ∀ s, pre s -> crash s)
    (holds : ∀ s, pre s -> post (act s).1 (act s).2) (fails : allowed place -> ∀ s, pre s -> post false s) :
    Triple allowed crash pre (CrashHoare.attempt place act) post := by
  intro schedule s before mayFail
  cases schedule with
  | nil => exact cut s before
  | cons works _ =>
    cases works with
    | true => exact holds s before
    | false => exact fails (mayFail place (List.mem_singleton.mpr rfl)) s before

lemma Triple.bind {p : Prog σ ε α} {next : α -> Prog σ ε β} {mid : α -> σ -> Prop} {post : β -> σ -> Prop}
    (first : Triple allowed crash pre p mid) (later : ∀ a, Triple allowed crash (mid a) (next a) post) :
    Triple allowed crash pre (p >>= next) post := by
  intro schedule s before mayFail
  change ∀ place ∈ ((p schedule s).andThen next).failed, allowed place at mayFail
  change ((p schedule s).andThen next).Meets crash post
  have reached := first schedule s before
  cases found : (p schedule s).value with
  | none =>
    simp only [Outcome.andThen, Outcome.Meets, found] at reached mayFail ⊢
    exact reached mayFail
  | some a =>
    simp only [Outcome.andThen, Outcome.Meets, found, List.forall_mem_append] at reached mayFail ⊢
    exact later a _ _ (reached mayFail.1) mayFail.2

lemma Triple.weaken {p : Prog σ ε α} {stronger : σ -> Prop} {crash' : σ -> Prop} {post' : α -> σ -> Prop}
    (triple : Triple allowed crash' stronger p post') (enter : ∀ s, pre s -> stronger s)
    (cut : ∀ s, crash' s -> crash s) (leave : ∀ a s, post' a s -> post a s) :
    Triple allowed crash pre p post := by
  intro schedule s before mayFail
  have reached := triple schedule s (enter s before) mayFail
  revert reached
  rw [Outcome.Meets, Outcome.Meets]
  cases (p schedule s).value with
  | none => exact cut _
  | some a => exact leave a _

lemma Triple.enter {p : Prog σ ε α} {stronger : σ -> Prop} (triple : Triple allowed crash stronger p post)
    (enter : ∀ s, pre s -> stronger s) : Triple allowed crash pre p post :=
  triple.weaken enter (fun _ cut => cut) fun _ _ after => after

lemma Triple.fact {fact : Prop} {p : Prog σ ε α} (triple : fact -> Triple allowed crash pre p post) :
    Triple allowed crash (fun s => fact ∧ pre s) p post :=
  fun schedule s before => triple before.1 schedule s before.2

lemma Triple.given {p : Prog σ ε α} (triple : ∀ s, pre s -> Triple allowed crash (· = s) p post) :
    Triple allowed crash pre p post :=
  fun schedule s before => triple s before schedule s rfl

-- A loop that stops at the first false. The invariant speaks about what is left to do.
lemma Triple.allM {body : β -> Prog σ ε Bool} (inv : List β -> σ -> Prop) (stop : σ -> Prop)
    (step : ∀ x xs, Triple allowed crash (inv (x :: xs)) (body x)
      fun ok s => (ok = true -> inv xs s) ∧ (ok = false -> stop s)) (xs : List β) :
    Triple allowed crash (inv xs) (xs.allM body) fun ok s => (ok = true -> inv [] s) ∧ (ok = false -> stop s) := by
  induction xs with
  | nil => exact Triple.pure fun s holds => ⟨fun _ => holds, Bool.noConfusion⟩
  | cons x xs ih =>
    refine Triple.bind (step x xs) fun ok => ?_
    cases ok with
    | true => exact ih.enter fun s after => after.1 rfl
    | false => exact Triple.pure fun s after => ⟨Bool.noConfusion, fun _ => after.2 rfl⟩

end Rules

end CrashHoare
