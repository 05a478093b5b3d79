import Mathlib.Tactic

-- Programs as lists of operations. A program can stop before any operation, and in the middle of one.
namespace Crash

variable {σ Op : Type} (apply : Op -> σ -> σ) (torn : Op -> σ -> σ -> Prop)

def exec (ops : List Op) (s : σ) : σ := ops.foldl (fun s op => apply op s) s

inductive Dies : List Op -> σ -> σ -> Prop
  | stop (ops : List Op) (s : σ) : Dies ops s s
  | torn {op : Op} {s t : σ} (rest : List Op) (broken : torn op s t) : Dies (op :: rest) s t
  | step {op : Op} {rest : List Op} {s t : σ} (later : Dies rest (apply op s) t) : Dies (op :: rest) s t

variable {apply torn}

@[simp] lemma exec_nil (s : σ) : exec apply [] s = s := rfl

@[simp] lemma exec_cons (op : Op) (ops : List Op) (s : σ) :
    exec apply (op :: ops) s = exec apply ops (apply op s) := rfl

lemma exec_append (first second : List Op) (s : σ) :
    exec apply (first ++ second) s = exec apply second (exec apply first s) := List.foldl_append

lemma exec_keeps (holds : σ -> Prop) {ops : List Op} (keeps : ∀ op ∈ ops, ∀ s, holds s -> holds (apply op s))
    {s : σ} (start : holds s) : holds (exec apply ops s) := by
  induction ops generalizing s with
  | nil => exact start
  | cons op rest ih =>
    obtain ⟨first, later⟩ := List.forall_mem_cons.mp keeps
    exact ih later (first s start)

lemma Dies.keeps (holds : σ -> Prop) {ops : List Op} (keeps : ∀ op ∈ ops, ∀ s, holds s -> holds (apply op s))
    (tornKeeps : ∀ op ∈ ops, ∀ s t, holds s -> torn op s t -> holds t) {s t : σ} (dies : Dies apply torn ops s t)
    (start : holds s) : holds t := by
  induction dies with
  | stop => exact start
  | torn rest broken => exact tornKeeps _ List.mem_cons_self _ _ start broken
  | step _ ih =>
    rw [List.forall_mem_cons] at keeps tornKeeps
    exact ih keeps.2 tornKeeps.2 (keeps.1 _ start)

lemma Dies.append {first second : List Op} {s t : σ} (dies : Dies apply torn (first ++ second) s t) :
    Dies apply torn first s t ∨ Dies apply torn second (exec apply first s) t := by
  induction first generalizing s with
  | nil => exact .inr dies
  | cons op rest ih =>
    cases dies with
    | stop => exact .inl (.stop _ _)
    | torn _ broken => exact .inl (.torn _ broken)
    | step later =>
      rcases ih later with early | late
      · exact .inl (.step early)
      · exact .inr late

lemma Dies.after {first second : List Op} {s t : σ} (dies : Dies apply torn second (exec apply first s) t) :
    Dies apply torn (first ++ second) s t := by
  induction first generalizing s with
  | nil => exact dies
  | cons op rest ih => exact .step (ih dies)

end Crash
