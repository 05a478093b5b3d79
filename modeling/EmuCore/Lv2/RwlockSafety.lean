import EmuCore.Lv2.RwlockCalls

namespace EmuCore.Lv2.Rwlock

open Option

variable {s s' : State} {t : ThreadId} {protocol : Protocol} {prio : ThreadId -> Prio}

variable (inv : Inv s)

include inv

lemma inside_inv {sec : Section} (taken : s.mutex = some (t, sec)) :
    Inv (inside protocol prio s t sec) := by
  cases sec with
  | rlockOp => exact rlockOp_inv inv taken
  | rlockEmplace => exact rlockEmplace_inv inv taken
  | rlockUnqueue => exact rlockUnqueue_inv inv taken
  | runlockOp => exact runlockOp_inv inv taken
  | runlockSchedule => exact runlockSchedule_inv inv taken
  | runlockGrant cpu => exact runlockGrant_inv inv taken
  | runlockFree => exact (inv.section_ok taken).elim
  | wlockOp => exact wlockOp_inv inv taken
  | wlockEmplace old => exact wlockEmplace_inv inv taken
  | wlockUnqueue => exact wlockUnqueue_inv inv taken
  | wlockLast => exact wlockLast_inv inv taken
  | wlockDrain cpus => exact wlockDrain_inv inv taken
  | wlockAdd cpus => exact wlockAdd_inv inv taken
  | wlockClear => exact wlockClear_inv inv taken
  | wunlockSchedule => exact wunlockSchedule_inv inv taken
  | wunlockGrant cpu => exact wunlockGrant_inv inv taken
  | wunlockReaders => exact wunlockReaders_inv inv taken
  | wunlockDrain cpus => exact wunlockDrain_inv inv taken
  | wunlockRelease cpus => exact wunlockRelease_inv inv taken
  | wunlockFree => exact wunlockFree_inv inv taken

lemma call_inv (away : ∀ sec, s.mutex ≠ some (t, sec)) (at_ : s.place t = .idle)
    {c : Call} (ran : call s t c = some s') : Inv s' := by
  cases c with
  | rlock =>
    cases ran
    exact sysRwlockRlock_inv inv away at_
  | tryrlock =>
    cases ran
    exact sysRwlockTryrlock_inv inv away at_
  | runlock =>
    obtain ⟨holds, rfl⟩ := ite_some_none_eq_some.mp ran
    exact sysRwlockRunlock_inv inv away at_ holds
  | wlock =>
    cases ran
    exact sysRwlockWlock_inv inv away at_
  | trywlock =>
    cases ran
    exact sysRwlockTrywlock_inv inv away at_
  | wunlock =>
    obtain ⟨holds, rfl⟩ := ite_some_none_eq_some.mp ran
    exact sysRwlockWunlock_inv inv away at_ holds

lemma enter_inv {sec : Section} (home : s.place t = sec.home)
    (ok : Quiet s.owner s.wq -> sec.Ok s.owner s.rq s.wq t) (noReaders : sec.readers = [])
    (noWriters : sec.writers = []) (ran : s.enter t sec = some s') : Inv s' := by
  obtain ⟨free, rfl⟩ := ite_some_none_eq_some.mp ran
  exact inv.enter free home (ok (inv.quiet free)) noReaders noWriters

lemma outside_inv {a : Action} (away : ∀ sec, s.mutex ≠ some (a.thread, sec))
    (ran : outside s a = some s') : Inv s' := by
  unfold outside at ran
  split at ran
  next at_ => exact call_inv inv away at_ ran
  next val at_ =>
    cases ran
    exact rlockCas_inv inv away at_
  next at_ => exact enter_inv inv at_ id rfl rfl ran
  next at_ =>
    split at ran
    next =>
      cases ran
      exact rlockProbe_inv inv away at_
    next =>
      obtain ⟨woken, rfl⟩ := ite_some_none_eq_some.mp ran
      exact rlockReturn_inv inv away woken (by rw [at_]; rfl)
  next at_ =>
    obtain ⟨free, rfl⟩ := ite_some_none_eq_some.mp ran
    exact rlockReturn_inv inv away (rlockSync_woken inv free at_) (by rw [at_]; rfl)
  next at_ => exact enter_inv inv at_ id rfl rfl ran
  next val at_ =>
    cases ran
    exact runlockCas_inv inv away at_
  next at_ => exact enter_inv inv at_ id rfl rfl ran
  next at_ =>
    cases ran
    exact wlockCas_inv inv away at_
  next at_ => exact enter_inv inv at_ id rfl rfl ran
  next at_ =>
    split at ran
    next =>
      cases ran
      exact inv.goto away at_ trivial rfl rfl
    next =>
      obtain ⟨woken, rfl⟩ := ite_some_none_eq_some.mp ran
      exact wlockReturn_inv inv away woken (by rw [at_]; rfl)
  next at_ => exact enter_inv inv at_ id rfl rfl ran
  next => cases ran
  next at_ =>
    cases ran
    exact trywlockCas_inv inv away at_
  next val at_ =>
    cases ran
    exact wunlockCas_inv inv away at_
  next at_ =>
    have home : s.place a.thread = Section.wunlockSchedule.home := at_
    exact enter_inv inv home (fun _ => trivial) rfl rfl ran

lemma step_inv {a : Action} : step protocol s a = some s' -> Inv s' := by
  fun_cases step protocol s a with
  | case1 sec taken =>
    rintro ⟨⟩
    exact inside_inv inv taken
  | case2 t sec taken other => exact outside_inv inv (by simp [taken, other])
  | case3 free => exact outside_inv inv (by simp [free])

omit inv in
lemma reachable_inv (reach : (system protocol).Reachable s) : Inv s := by
  refine reach.invariant ?_ ?_
  · rintro _ rfl
    exact start_inv
  · intro _ _ _ inv ran
    exact step_inv inv ran

lemma readers_iff (n : Nat) (some : 1 ≤ n) :
    (s.owner = -2 * n ∨ s.owner = -2 * n + 1) ↔ (s.readers.length = n ∧ s.writers = []) := by
  constructor
  · intro word
    have none := inv.word.nonpos (by omega)
    rcases inv.word with ⟨_, count⟩ | ⟨u, one, _, _⟩
    · exact ⟨by omega, none⟩
    · simp [none] at one
  · rintro ⟨count, none⟩
    rcases inv.word with ⟨_, word⟩ | ⟨u, one, _, _⟩
    · omega
    · simp [none] at one

lemma writer_iff (u : ThreadId) :
    (s.owner = writerWord u ∨ s.owner = writerWord u + 1) ↔ (s.writers = [u] ∧ s.readers = []) := by
  constructor
  · intro word
    have pos := writerWord_pos u
    rcases inv.word with ⟨_, count⟩ | ⟨v, one, empty, named⟩
    · rcases count with even | ⟨held, odd⟩
      · exact absurd word (by omega)
      · have some := List.length_pos_iff.mpr held
        exact absurd word (by omega)
    · simp only [writerWord] at *
      rw [ThreadId.ext_id (t := u) (u := v) (by omega)]
      exact ⟨one, empty⟩
  · rintro ⟨one, _⟩
    exact (inv.word.writer_eq (by simp [one])).2.2

lemma no_waiter_of_clear (clear : waitBit s.owner = false) :
    s.rq = [] ∧ s.wq = [] := by
  have empty : ¬ (s.rq ≠ [] ∨ s.wq ≠ []) := fun queued => absurd (inv.bit queued) (by simp [clear])
  simpa using empty

omit inv

-- The section has taken a writer off `wq` and not yet settled `owner` accordingly.
def Section.tookWriter : Section -> Bool
  | .runlockGrant _ | .wlockLast | .wlockDrain _ | .wlockAdd _ => true
  | _ => false

lemma writer_waits_inv (inv : Inv s)
    (settled : ∀ u sec, s.mutex = some (u, sec) -> sec.tookWriter = false) (negative : s.owner < 0)
    (readers : s.rq ≠ []) : s.wq ≠ [] := by
  have set := inv.bit (.inl readers)
  cases taken : s.mutex with
  | none => exact inv.quiet taken negative set
  | some pair =>
    obtain ⟨u, sec⟩ := pair
    have done := settled u sec taken
    have ok := inv.section_ok taken
    have here := inv.places u
    rw [inv.home taken] at here
    have notWriter : u ∉ s.writers := fun holds => by
      have word := (inv.word.writer_eq holds).2.2
      have pos := writerWord_pos u
      omega
    cases sec <;> simp_all [Section.tookWriter, Section.Ok, Section.home, Place.Ok, Quiet]

lemma unlock_fast_inv (inv : Inv s) {val : Int}
    (at_ : s.place t = .runlockCas val ∨ s.place t = .wunlockCas val) (same : s.owner = val) :
    s.rq = [] ∧ s.wq = [] := by
  have here := inv.places t
  refine no_waiter_of_clear inv ?_
  rcases at_ with at_ | at_ <;> rw [at_] at here
  · rw [same]
    exact here.2.1
  · rw [same, here.1, waitBit_eq_false, writerWord]
    omega

theorem rwlock_safe (protocol : Protocol) (s : State) (reach : (system protocol).Reachable s) :
    (∀ n : Nat, 1 ≤ n ->
      ((s.owner = -2 * n ∨ s.owner = -2 * n + 1) ↔ (s.readers.length = n ∧ s.writers = []))) ∧
    (∀ t, (s.owner = writerWord t ∨ s.owner = writerWord t + 1) ↔
      (s.writers = [t] ∧ s.readers = [])) ∧
    (s.owner = 0 -> s.rq = [] ∧ s.wq = []) ∧
    (s.rq ≠ [] ∨ s.wq ≠ [] -> waitBit s.owner = true) ∧
    ((∀ t sec, s.mutex = some (t, sec) -> sec.tookWriter = false) ->
      s.owner < 0 -> s.rq ≠ [] -> s.wq ≠ []) ∧
    s.failed = false ∧
    (∀ t val, (s.place t = .runlockCas val ∨ s.place t = .wunlockCas val) -> s.owner = val ->
      s.rq = [] ∧ s.wq = []) := by
  have inv := reachable_inv reach
  exact ⟨readers_iff inv, writer_iff inv, fun zero => no_waiter_of_clear inv (by rw [zero]; rfl),
    inv.bit, writer_waits_inv inv, inv.sound, fun _ _ => unlock_fast_inv inv⟩

def go (t : ThreadId) (c : Call) : Action := ⟨t, c, false, fun _ => ⟨0, 0⟩⟩

def handover : List Action :=
  let first := ThreadId.nth 0
  let second := ThreadId.nth 1
  let third := ThreadId.nth 2
  [go first .rlock, go first .rlock] ++
  List.replicate 4 (go second .wlock) ++
  List.replicate 4 (go third .rlock) ++
  List.replicate 4 (go first .runlock)

theorem rwlock_unsettled : ∃ s, (system .priority).Reachable s ∧ s.owner < 0 ∧ s.rq ≠ [] ∧
    s.wq = [] := by
  refine ⟨_, (Transition.System.Reachable.init rfl).run handover
    (some_get (show ((system .priority).run start handover).isSome by decide)).symm, ?_⟩
  decide

theorem rwlock_safe_queued : ∃ s, (system .priority).Reachable s ∧ s.owner = -1 ∧
    s.readers.length = 1 ∧ s.wq ≠ [] ∧ s.failed = false := by
  have ran := (some_get
    (show ((system .priority).run start (handover.take 10)).isSome by decide)).symm
  have reach := (Transition.System.Reachable.init rfl).run _ ran
  obtain ⟨readers, _, _, _, waits, sound, _⟩ := rwlock_safe .priority _ reach
  refine ⟨_, reach, rfl, ((readers 1 le_rfl).mp (.inr rfl)).1, waits ?_ (by decide) (by decide), sound⟩
  intro t sec taken
  cases taken

end EmuCore.Lv2.Rwlock
