import EmuCore.Lv2.PpuJoinSteps

namespace EmuCore.Lv2.PpuJoin

variable {P : Type} [DecidableEq P]

-- The steps that a thread or a call takes by itself once it has begun to exit or has taken a thread over.
def Action.internal : Action P -> Bool
  | .leave _ => true
  | .finish _ => true
  | .joinResume _ => true
  | .joinRemove _ => true
  | .detachFinish _ => true
  | _ => false

def Quiet (s : State P) : Prop := ∀ action : Action P, action.internal = true -> perform s action = none

variable {s : State P} {th : Thread P}

lemma finished_of_quiet (sound : Sound s) (quiet : Quiet s) {t : P} (known : s.threads t = some th)
    (gone : th.joiner = exited) (left : th.phase ≠ .running) :
    th.phase = .finished := by
  induction turn : th.turn using Nat.strongRecOn generalizing t th with
  | _ n ih =>
    cases phase : th.phase with
    | running => exact absurd phase left
    | waiting =>
      have stuck := quiet (.leave t) rfl
      simp [perform, leave, known, phase, gone, exited, zombie] at stuck
    | released =>
      have stuck := quiet (.finish t) rfl
      have ready : th.oldPpu.all (isFinished s) = true := by
        cases old : th.oldPpu with
        | none => rfl
        | some o =>
          obtain ⟨before, known', gone', left', earlier⟩ := sound.chain t th o known old
          exact isFinished_iff.mpr ⟨before, known', ih _ (turn ▸ earlier) known' gone' left' rfl⟩
      simp [perform, finish, known, phase, ready] at stuck
    | finished => rfl

lemma returned_of_quiet (quiet : Quiet s) {t : P} (known : s.threads t = some th) (finished : th.phase = .finished)
    {c : Nat} (taken : (s.calls c).takes = some t) : ∃ result, s.calls c = .returned (some t) result := by
  generalize here : s.calls c = call at taken
  cases call with
  | idle => cases taken
  | waiting t' threadId eagain vptr =>
    cases taken
    have stuck := quiet (.joinResume c) rfl
    rw [perform, joinResume, here] at stuck
    simp only [known, finished] at stuck
    split at stuck
    · contradiction
    · split at stuck
      · cases stuck
      · split at stuck <;> cases stuck
  | removing t' threadId vret vptr =>
    cases taken
    have stuck := quiet (.joinRemove c) rfl
    rw [perform, joinRemove, here] at stuck
    dsimp only at stuck
    split at stuck <;> cases stuck
  | finishing t' =>
    cases taken
    have stuck := quiet (.detachFinish c) rfl
    rw [perform, detachFinish, here] at stuck
    dsimp only at stuck
    rw [if_pos (isFinished_iff.mpr ⟨th, known, finished⟩)] at stuck
    cases stuck
  | returned found result =>
    obtain ⟨-, taken⟩ := Option.ite_none_left_eq_some.mp taken
    exact ⟨result, by rw [taken]⟩

omit [DecidableEq P] in
lemma withdrawals_of_standing (sound : Sound s) {t : P} (known : s.threads t = some th) :
    th.withdrawals ≤ 1 ∧
      (th.withdrawals = 1 -> th.phase ≠ .running ∧
        (th.bornDetached = true ∨ ∃ c, (s.calls c).takes = some t)) ∧
      (th.phase ≠ .running -> (th.bornDetached = true ∨
        ∃ c result, s.calls c = .returned (some t) result ∧ result.isError = false) -> th.withdrawals = 1) := by
  have returned : ∀ {c result}, s.calls c = .returned (some t) result -> result.isError = false ->
      (s.calls c).takes = some t ∧ (s.calls c).settled = true := by
    intro c result here success
    rw [here]
    exact ⟨by simp [Call.takes, success], rfl⟩
  have kept : th.withdrawals = 0 -> th.withdrawals ≤ 1 ∧ (th.withdrawals = 1 -> th.phase ≠ .running ∧
      (th.bornDetached = true ∨ ∃ c, (s.calls c).takes = some t)) := by
    intro none
    rw [none]
    exact ⟨Nat.zero_le 1, fun one => by cases one⟩
  cases sound.standing t th known with
  | joinable _ running none | detached _ running none | joined _ running none =>
    exact ⟨(kept none).1, (kept none).2, fun left => absurd running left⟩
  | zombie _ _ none _ born free =>
    refine ⟨(kept none).1, (kept none).2, fun _ owned => ?_⟩
    rcases owned with detached | ⟨c, result, here, success⟩
    · cases born.symm.trans detached
    · exact absurd (returned here success).1 (free c)
  | gone _ left removed owner =>
    exact ⟨removed.le, fun _ => ⟨left, owner.imp And.left fun ⟨c, taken, _⟩ => ⟨c, taken⟩⟩, fun _ _ => removed⟩
  | reaped _ _ none _ born owner =>
    refine ⟨(kept none).1, (kept none).2, fun _ owned => ?_⟩
    obtain ⟨d, taken, pending⟩ := owner
    rcases owned with detached | ⟨c, result, here, success⟩
    · cases born.symm.trans detached
    · obtain ⟨taken', settled⟩ := returned here success
      rw [sound.once c d t taken' taken, pending] at settled
      cases settled

omit [DecidableEq P] in
lemma exited_of_owned (sound : Sound s) {t : P} (known : s.threads t = some th) (left : th.phase ≠ .running)
    (owned : th.bornDetached = true ∨ ∃ c, (s.calls c).takes = some t) :
    th.joiner = exited := by
  cases sound.standing t th known with
  | gone status | reaped status => exact status
  | zombie _ _ _ _ born free =>
    rcases owned with detached | ⟨c, taken⟩
    · cases born.symm.trans detached
    · exact absurd taken (free c)
  | _ _ running => exact absurd running left

def zombieJoined : List (Action Nat) :=
  [.create 0 0x01000000 false 0, .create 1 0x01000001 false 0, .compute 0 7, .exit 0,
    .join 0 1 0x01000000 true, .join 1 1 0x01000000 true, .leave 0, .finish 0, .joinResume 0, .joinRemove 0]

end EmuCore.Lv2.PpuJoin
