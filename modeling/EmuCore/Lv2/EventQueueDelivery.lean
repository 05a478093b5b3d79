import EmuCore.Lv2.EventQueueSteps

namespace EmuCore.Lv2.EventQueue

open List Option

variable {cfg : Config} {s s' : State} {t : ThreadId} {prio : ThreadId -> Prio}

variable (inv : Inv cfg s)

include inv

lemma inside_inv {sec : Section} (taken : s.mutex = some (t, sec)) :
    Inv cfg (inside cfg prio s t sec) := by
  cases sec with
  | sendOp event => exact sendOp_inv inv taken
  | sendStore cpu item => exact sendStore_inv inv taken
  | receiveOp => exact receiveOp_inv inv taken
  | receiveUnqueue => exact receiveUnqueue_inv inv taken
  | tryreceiveExists size => exact tryreceiveExists_inv inv taken
  | tryreceiveLoop size events => exact tryreceiveLoop_inv inv taken
  | drainOp => exact drainOp_inv inv taken
  | destroyOp mode => exact destroyOp_inv inv taken
  | destroyCancel => exact destroyCancel_inv inv taken

lemma enter_inv {sec : Section} (ran : s.enter t sec = some s')
    (waits : (s.place t).waits = sec.waits) (noThreads : sec.threads = [])
    (noTaken : sec.taken = []) (noDirect : sec.direct = []) : Inv cfg s' := by
  obtain ⟨free, rfl⟩ := ite_some_none_eq_some.mp ran
  exact inv.enter free waits noThreads noTaken noDirect

lemma call_inv (away : ∀ sec, s.mutex ≠ some (t, sec))
    (at_ : s.place t = .idle) {c : Call} (ran : call s t c = some s') : Inv cfg s' := by
  have enters : ∀ sec : Section, sec.waits = false -> sec.threads = [] -> sec.taken = [] ->
      sec.direct = [] -> (if s.alive then s.enter t sec else some s) = some s' -> Inv cfg s' := by
    intro sec waits noThreads noTaken noDirect ran
    split at ran
    next => exact enter_inv inv ran (by rw [at_, waits]; rfl) noThreads noTaken noDirect
    next => exact Option.some.inj ran ▸ inv
  cases c with
  | send event =>
    cases ran
    exact inv.goto away (by rw [at_]; rfl) (fun other => by cases other)
  | receive => exact enters .receiveOp rfl rfl rfl rfl ran
  | tryreceive size =>
    cases ran
    split
    next => exact inv.goto away (by rw [at_]; rfl) (fun other => by cases other)
    next => exact inv
  | drain => exact enters .drainOp rfl rfl rfl rfl ran
  | destroy mode =>
    simp only [call] at ran
    split at ran
    next => exact Option.some.inj ran ▸ inv
    next => exact enters (.destroyOp mode.toInt) rfl rfl rfl rfl ran

lemma outside_inv {a : Action} (away : ∀ sec, s.mutex ≠ some (a.thread, sec))
    (ran : outside s a = some s') : Inv cfg s' := by
  unfold outside at ran
  split at ran
  next at_ => exact call_inv inv away at_ ran
  next event at_ => exact enter_inv inv ran (by rw [at_]; rfl) rfl rfl rfl
  next at_ =>
    split at ran
    next =>
      cases ran
      exact receiveProbe_inv inv away at_
    next =>
      obtain ⟨woken, rfl⟩ := ite_some_none_eq_some.mp ran
      exact receiveReturn_inv inv away woken
  next at_ =>
    obtain ⟨free, rfl⟩ := ite_some_none_eq_some.mp ran
    exact receiveReturn_inv inv away (receiveSync_woken inv free at_)
  next at_ => exact enter_inv inv ran (by rw [at_]; rfl) rfl rfl rfl
  next size at_ => exact enter_inv inv ran (by rw [at_]; rfl) rfl rfl rfl

lemma step_inv {a : Action} : step cfg s a = some s' -> Inv cfg s' := by
  fun_cases step cfg s a with
  | case1 sec taken =>
    rintro ⟨⟩
    exact inside_inv inv taken
  | case2 t sec taken other => exact outside_inv inv (by simp [taken, other])
  | case3 free => exact outside_inv inv (by simp [free])

omit inv in
lemma reachable_inv (reach : (system cfg).Reachable s) : Inv cfg s := by
  refine reach.invariant ?_ ?_
  · rintro _ rfl
    exact start_inv cfg
  · intro _ _ _ inv ran
    exact step_inv inv ran

lemma accepted_nodup : s.accepted.Nodup := by
  have calls := inv.ledger.calls
  rw [map_append] at calls
  exact (List.Nodup.of_append_left calls).of_map Item.call

lemma received_once (d e : Delivery) (first : d ∈ s.received)
    (second : e ∈ s.received) (same : d.item = e.item) : d = e := by
  have nodup := inv.ledger.located.nodup_iff.mp (accepted_nodup inv)
  simp only [append_assoc] at nodup
  exact inj_on_of_nodup_map (List.Nodup.of_append_left nodup) first second same

lemma refused_apart (item : Item) (refused : item ∈ s.refused) :
    item ∉ s.accepted := by
  intro accepted
  have calls := inv.ledger.calls
  rw [map_append] at calls
  exact disjoint_of_nodup_append calls (mem_map_of_mem accepted)
    (mem_map_of_mem refused)

omit inv

theorem event_queue_delivers (cfg : Config) (s : State) (reach : (system cfg).Reachable s) :
    (s.pq ≠ [] -> s.events = []) ∧ s.events.length ≤ cfg.size ∧ s.failed = false ∧
    s.accepted.Nodup ∧
    s.accepted.Perm (s.received.map Delivery.item ++ s.handTaken ++ (s.handDirect ++ s.inFlight) ++
      s.events ++ s.dropped) ∧
    (∀ d e, d ∈ s.received -> e ∈ s.received -> d.item = e.item -> d = e) ∧
    ((s.received.filter Delivery.buffered).map Delivery.item ++ s.handTaken ++ s.events).Sublist
      s.accepted ∧
    (∀ item ∈ s.refused, item ∉ s.accepted) := by
  have inv := reachable_inv reach
  have size := inv.ledger.size
  exact ⟨inv.queues, (Nat.le_add_right _ _).trans size, inv.sound, accepted_nodup inv,
    inv.ledger.located, received_once inv, inv.ledger.fifo, refused_apart inv⟩

def small : Config := ⟨.fifo, 1, by decide, by decide⟩

def threeSends : List Action :=
  let receiver := ThreadId.nth 0
  let sender := ThreadId.nth 1
  let act (t : ThreadId) (c : Call) : Action := ⟨t, c, false, fun _ => ⟨0, 0⟩⟩
  replicate 2 (act receiver .receive) ++
  replicate 4 (act sender (.send ⟨1, 0, 0, 0⟩)) ++
  replicate 3 (act sender (.send ⟨2, 0, 0, 0⟩)) ++
  replicate 3 (act sender (.send ⟨3, 0, 0, 0⟩)) ++
  [act receiver .receive]

theorem event_queue_delivers_three : ∃ s, (system small).Reachable s ∧
    s.received = [⟨ThreadId.nth 0, ⟨0, 1, 0, 0, 0⟩, false⟩] ∧ s.events = [⟨1, 2, 0, 0, 0⟩] ∧
    s.refused = [⟨2, 3, 0, 0, 0⟩] ∧ s.accepted.Perm [⟨0, 1, 0, 0, 0⟩, ⟨1, 2, 0, 0, 0⟩] := by
  have ran := (some_get
    (show ((system small).run start threeSends).isSome by decide)).symm
  have reach := (Transition.System.Reachable.init rfl).run _ ran
  obtain ⟨_, _, _, _, located, _⟩ := event_queue_delivers small _ reach
  exact ⟨_, reach, by decide, by decide, by decide, located⟩

end EmuCore.Lv2.EventQueue
