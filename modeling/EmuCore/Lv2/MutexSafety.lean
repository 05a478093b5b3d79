import EmuCore.Lv2.MutexCalls

namespace EmuCore.Lv2.Mutex

open Parking LinkedList Option List

variable {cfg : Config} {s s' : State} {t : ThreadId} {a : Action} {prio : ThreadId -> Prio}

section

variable (inv : Inv cfg s)

include inv

lemma inside_inv {sec : Section} (taken : s.mutex = some (t, sec)) :
    Inv cfg (inside cfg prio s t sec) := by
  cases sec with
  | reownLoad => exact reload_inv inv taken (inv.held t _ taken).2 rfl rfl
  | reownRun old seen => exact reownRun_inv inv taken
  | reownFree old seen => exact reownFree_inv inv taken
  | reownCas old new seen res prio => exact reownCas_inv inv taken
  | reownStore seen res prio => exact reownStore_inv inv taken
  | reownDetach res => exact reownDetach_inv inv taken
  | timeoutLoad => exact inv.proceed taken ⟨inv.seen_now, id⟩ rfl rfl
  | timeoutRun old seen => exact timeoutRun_inv inv taken
  | timeoutCas old new seen => exact timeoutCas_inv inv taken
  | timeoutDone => exact timeoutDone_inv inv taken

lemma call_inv (away : ∀ sec, s.mutex ≠ some (t, sec))
    (at_ : s.place t = .idle) (c : Call) : Inv cfg (call cfg s t c) := by
  have calm : (s.place t).waits = false := by rw [at_]; rfl
  cases c with
  | lock | trylock => exact tryLock_inv inv away calm (fun _ zero => zero) (fun _ => rfl) trivial rfl
  | unlock => exact tryUnlock_inv inv away at_

lemma enter_inv {sec : Section} (ran : s.enter t sec = some s')
    (waits : (s.place t).waits = sec.waits) (ok : sec.Ok cfg s.next s.queue s.holders t)
    (empty : sec.hand = []) : Inv cfg s' := by
  obtain ⟨free, rfl⟩ := ite_some_none_eq_some.mp ran
  exact { inv with
    held := by
      rintro _ _ ⟨⟩
      exact ⟨waits, ok⟩
    tracks := by
      have tracks := inv.tracks
      simp only [State.hand, isNone_iff_eq_none.mp free, map_none, getD_none] at tracks
      rw [← empty] at tracks
      exact tracks }

lemma outside_inv (away : ∀ sec, s.mutex ≠ some (a.thread, sec))
    (ran : outside cfg s a = some s') : Inv cfg s' := by
  have here := inv.places a.thread
  unfold outside at ran
  split at ran <;> rename_i at_ <;> rw [at_] at here
  case h_1 =>
    cases ran
    exact call_inv inv away at_ a.call
  case h_2 =>
    cases ran
    exact tryLock_inv inv away (by rw [at_]; rfl) (fun _ zero => zero) (fun _ => rfl) trivial rfl
  case h_3 =>
    cases ran
    exact tryLockCas_inv inv away (by rw [at_]; rfl) here trivial rfl
  case h_4 =>
    cases ran
    exact lockBusy_inv inv away at_ a.retry
  case h_5 =>
    cases ran
    exact tryLockCas_inv inv away (by rw [at_]; rfl) here trivial rfl
  case h_6 =>
    cases ran
    exact tryOwnRun_inv inv away at_
  case h_7 =>
    cases ran
    exact tryOwnCas_inv inv away at_
  case h_8 =>
    split at ran
    next =>
      cases ran
      exact lockProbe_inv inv away at_
    next =>
      obtain ⟨woken, rfl⟩ := ite_some_none_eq_some.mp ran
      exact lockReturn_inv inv away woken
  case h_9 =>
    obtain ⟨free, rfl⟩ := ite_some_none_eq_some.mp ran
    exact lockReturn_inv inv away (lockSync_woken inv (isNone_iff_eq_none.mp free) at_)
  case h_10 => exact enter_inv inv ran (by rw [at_]; rfl) trivial rfl
  case h_11 => cases ran
  case h_12 =>
    cases ran
    exact tryUnlockCas_inv inv away at_
  case h_13 => exact enter_inv inv ran (by rw [at_]; rfl) here rfl

lemma step_inv : step cfg s a = some s' -> Inv cfg s' := by
  fun_cases step cfg s a with
  | case1 sec taken =>
    rintro ⟨⟩
    exact inside_inv inv taken
  | case2 t sec taken other => exact outside_inv inv (by simp [taken, other])
  | case3 free => exact outside_inv inv (by simp [free])

end

lemma reachable_inv (reach : (system cfg).Reachable s) : Inv cfg s := by
  refine reach.invariant ?_ ?_
  · rintro _ rfl
    exact start_inv cfg
  · intro _ _ _ inv ran
    exact step_inv inv ran

section Leaving

variable {u : ThreadId}

lemma inside_place (other : u ≠ t) (sec : Section) :
    (inside cfg prio s t sec).place u = s.place u := by
  cases sec <;> simp only [inside, reownRun, reownFree, reownCas, reownStore, reownDetach, timeoutRun,
    timeoutCas, timeoutDone, State.within, State.leave, State.lockReturn, State.goto, State.setNext]
  all_goals try split
  all_goals try split
  all_goals try split
  all_goals simp [other]

lemma call_place (other : u ≠ t) (c : Call) : (call cfg s t c).place u = s.place u := by
  cases c <;> simp only [call, tryLock, tryUnlock, State.goto]
  all_goals (repeat' split)
  all_goals simp [other]

lemma outside_place (other : u ≠ a.thread) (ran : outside cfg s a = some s') :
    s'.place u = s.place u := by
  simp only [outside, tryLock, tryLockCas, lockBusy, tryOwnRun, tryOwnCas, lockProbe, tryUnlockCas,
    State.enter, State.lockReturn, State.setNext, State.goto] at ran
  repeat' split at ran
  all_goals cases ran
  all_goals first | exact call_place other _ | simp [other]

lemma step_place (other : u ≠ a.thread) : step cfg s a = some s' -> s'.place u = s.place u := by
  fun_cases step cfg s a with
  | case1 sec taken =>
    rintro ⟨⟩
    exact inside_place other sec
  | case2 | case3 => exact outside_place other

lemma timeout_leaves (inv : Inv cfg s) {sec : Section} (taken : s.mutex = some (t, sec))
    (waits : (s.place t).waits = true) (left : ((inside cfg prio s t sec).place t).waits = false) :
    t ∈ s.woken ∨ (t ∈ s.queue ∧ (inside cfg prio s t sec).place t = .lockLeave) := by
  obtain ⟨same, ok⟩ := inv.held t sec taken
  rw [waits] at same
  have woken (empty : sec.hand = []) : t ∉ s.queue -> t ∈ s.woken :=
    (inv.tracks_at taken).ready empty waits
  cases sec with
  | timeoutLoad => simp [inside, State.within, waits] at left
  | timeoutRun old seen =>
    obtain ⟨before, own⟩ := ok
    simp only [inside, timeoutRun, inv.linked_eq before] at left ⊢
    cases seen with
    | nil => exact .inl (woken rfl fun member => by cases own member)
    | cons it rest =>
      dsimp only at left ⊢
      split at left
      next => simp [State.within, waits] at left
      next other =>
        rw [if_neg other]
        split at left
        next inside =>
          rw [if_pos inside]
          exact .inr ⟨before.2.subset (mem_cons_of_mem it inside), by
            simp [State.within, State.goto]⟩
        next missing =>
          refine .inl (woken rfl fun member => missing ?_)
          exact (mem_cons.mp (own member)).resolve_left fun same => other same.symm
  | timeoutCas old new seen =>
    obtain ⟨before, first, _⟩ := ok
    simp only [inside, timeoutCas] at left ⊢
    split at left
    next same =>
      rw [if_pos same]
      exact .inr ⟨before.2.subset (mem_of_head? first), by simp [State.within, State.goto]⟩
    next => simp [State.within, waits] at left
  | _ => cases same

lemma wait_leaves (inv : Inv cfg s) (waits : (s.place a.thread).waits = true)
    (ran : outside cfg s a = some s') (left : (s'.place a.thread).waits = false) :
    a.thread ∈ s.woken := by
  unfold outside at ran
  split at ran <;> rename_i at_ <;> simp only [at_, Place.waits, Bool.false_eq_true] at waits
  case h_8 =>
    split at ran
    next =>
      cases ran
      unfold lockProbe at left
      split at left <;> simp [State.goto, Place.waits] at left
    next => exact (ite_some_none_eq_some.mp ran).1
  case h_9 =>
    obtain ⟨free, _⟩ := ite_some_none_eq_some.mp ran
    exact lockSync_woken inv (isNone_iff_eq_none.mp free) at_
  case h_10 =>
    obtain ⟨_, rfl⟩ := ite_some_none_eq_some.mp ran
    simp [at_, Place.waits] at left

-- A thread stops waiting only by its own steps: it returns as the owner it was made by `reown`, or
-- it has unlinked itself after its timeout.
lemma step_leaves (inv : Inv cfg s) (ran : step cfg s a = some s')
    (waits : (s.place u).waits = true) (left : (s'.place u).waits = false) :
    (u ∈ s.woken ∧ u ∈ s.holders) ∨ (u ∈ s.queue ∧ s'.place u = .lockLeave) := by
  have own : u = a.thread := by
    by_contra other
    rw [step_place other ran, waits] at left
    cases left
  subst own
  have cases_ : a.thread ∈ s.woken ∨ (a.thread ∈ s.queue ∧ s'.place a.thread = .lockLeave) := by
    revert ran
    fun_cases step cfg s a with
    | case1 sec taken =>
      rintro ⟨⟩
      exact timeout_leaves inv taken waits left
    | case2 | case3 => exact fun ran => .inl (wait_leaves inv waits ran left)
  exact cases_.imp_left fun woken => ⟨woken, inv.owners _ woken⟩

end Leaving

lemma holder_iff (inv : Inv cfg s) (u : ThreadId) : u ∈ s.holders ↔ s.control.owner = u.id :=
  ⟨fun member => (inv.own.holder member).1, inv.own.self⟩

lemma one_holder (inv : Inv cfg s) : s.holders.length ≤ 1 := by
  rcases inv.own with ⟨_, none⟩ | ⟨_, _, one⟩
  · simp [none]
  · simp [one]

theorem mutex_safe (cfg : Config) (s : State) (reach : (system cfg).Reachable s) :
    s.holders.length ≤ 1 ∧ (∀ t, t ∈ s.holders ↔ s.control.owner = t.id) ∧
    (s.control.owner = 0 -> s.control.sq = none ∧ s.queue = []) ∧
    Chain s.next s.control.sq s.queue ∧
    (s.queue ++ s.hand ++ s.woken).Nodup ∧
    (∀ t, t ∈ s.queue ++ s.hand ++ s.woken ↔ (s.place t).waits = true) ∧
    (∀ a s', step cfg s a = some s' -> ∀ t, (s.place t).waits = true -> (s'.place t).waits = false ->
      (t ∈ s.woken ∧ t ∈ s.holders) ∨ (t ∈ s.queue ∧ s'.place t = .lockLeave)) ∧
    (∀ g ∈ s.grants, Prescribed cfg.protocol g.prio g.seen g.thread) ∧ s.failed = false := by
  have inv := reachable_inv reach
  refine ⟨one_holder inv, holder_iff inv, fun zero => ?_, inv.chain, inv.tracks.nodup,
    inv.tracks.mem, fun _ _ ran _ => step_leaves inv ran, inv.grants, inv.sound⟩
  have none := inv.free zero
  refine ⟨?_, none⟩
  rw [inv.chain.head, none]
  rfl

def plain : Config := ⟨.fifo, false⟩

-- Two threads queue up behind the owner, which unlocks: the older one is behind the head.
def handover : List Action :=
  let act (n : Nat) (c : Call) : Action := ⟨ThreadId.nth n, c, false, false, fun _ => 0⟩
  replicate 2 (act 0 .lock) ++ replicate 4 (act 1 .lock) ++
  replicate 4 (act 2 .lock) ++ replicate 6 (act 0 .unlock)

theorem mutex_safe_handover : ∃ s, (system plain).Reachable s ∧ s.queue = [ThreadId.nth 2] ∧
    s.woken = [ThreadId.nth 1] ∧ ThreadId.nth 1 ∈ s.holders ∧
    Chain s.next s.control.sq [ThreadId.nth 2] := by
  have ran := (some_get
    (show ((system plain).run start handover).isSome by decide)).symm
  have reach := (Transition.System.Reachable.init rfl).run _ ran
  obtain ⟨_, owners, _, chain, _⟩ := mutex_safe plain _ reach
  exact ⟨_, reach, by decide, by decide, (owners _).mpr (by decide), chain⟩

end EmuCore.Lv2.Mutex
