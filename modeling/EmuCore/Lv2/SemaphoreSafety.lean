import EmuCore.Lib.Parking
import EmuCore.Lv2.Semaphore

namespace EmuCore.Lv2.Semaphore

open Parking Option

variable {val : Int}

lemma s32_eq (lower : -2 ^ 31 ≤ val) (upper : val < 2 ^ 31) : s32 val = val := by
  simp only [s32, Int.bmod]
  split <;> omega

lemma u32_eq (lower : 0 ≤ val) (upper : val < 2 ^ 32) : u32 val = val := by
  unfold u32
  omega

def Place.waits : Place -> Bool
  | .waiting | .waitTimeout => true
  | _ => false

def Place.Ok (cfg : Config) : Place -> Prop
  | .waitCas val => 0 < val
  | .postCas val count => 0 ≤ val ∧ 0 < count ∧ val + count ≤ cfg.max
  | .postLock count => 0 < count ∧ count < 2 ^ 31
  | _ => True

def Section.home : Section -> Place
  | .waitDec | .waitEmplace => .waitLock
  | .waitUnqueue => .waitTimeout
  | .waitInc => .waitLeave
  | .postOp count | .postWake count _ => .postLock count

-- A thread that is counted in `val` and not in `sq`, and threads that are in `sq` although a
-- post has already paid for them.
def Section.absent : Section -> Nat
  | .waitEmplace | .waitInc => 1
  | _ => 0

def Section.due : Section -> Nat
  | .postWake _ left => left
  | _ => 0

def Section.Ok (val : Int) : Section -> Prop
  | .waitEmplace | .waitInc => val < 0
  | _ => True

namespace State

def absent (s : State) : Nat := (s.mutex.map fun held => held.2.absent).getD 0

def due (s : State) : Nat := (s.mutex.map fun held => held.2.due).getD 0

end State

/-- The counters of a run: what was posted and not yet taken is in `val`, or due to threads that
are about to be woken. -/
structure Inv (cfg : Config) (s : State) : Prop where
  upper : s.val ≤ cfg.max
  queue : (s.sq.length : Int) + s.absent = max (-s.val) 0 + s.due
  balance : cfg.initial + s.posted - (s.returned + s.woken.length) = max s.val 0 + s.due
  places : ∀ u, (s.place u).Ok cfg
  held : ∀ t sec, s.mutex = some (t, sec) -> s.place t = sec.home ∧ sec.Ok s.val
  tracks : Tracks (fun u => (s.place u).waits = true) s.sq [] s.woken
  sound : s.failed = false

lemma start_inv (cfg : Config) : Inv cfg (start cfg) where
  upper := cfg.initial_le
  queue := by
    have nonneg := cfg.initial_nonneg
    simp only [start, State.absent, State.due, List.length_nil, map_none, getD_none]
    omega
  balance := by
    have nonneg := cfg.initial_nonneg
    simp only [start, State.due, List.length_nil, map_none, getD_none]
    omega
  places := fun _ => trivial
  held := fun _ _ taken => by cases taken
  tracks := ⟨by simp [start], by simp [start, Place.waits]⟩
  sound := rfl

variable {p : Place}

lemma places_update {cfg : Config} {place : ThreadId -> Place} (t : ThreadId) (ok : ∀ u, (place u).Ok cfg)
    (here : p.Ok cfg) (u : ThreadId) :
    (Function.update place t p u).Ok cfg := by
  by_cases same : u = t
  · subst same
    simpa using here
  · simpa [same] using ok u

namespace Inv

variable {cfg : Config} {s : State} {t : ThreadId} {sec : Section}

variable (inv : Inv cfg s)

include inv

lemma lower : -2 ^ 31 < s.val + s.absent := by
  have few := length_lt_of_nodup inv.tracks.queue_nodup
  have queue := inv.queue
  omega

lemma lockfree (away : ∀ sec, s.mutex ≠ some (t, sec)) {posted : Int} {returned : Nat}
    (before : 0 ≤ s.val) (after : 0 ≤ val) (upper : val ≤ cfg.max)
    (balance : posted - returned - val = s.posted - s.returned - s.val) (here : p.Ok cfg)
    (waits : p.waits = (s.place t).waits) :
    Inv cfg ({ s with val := val, posted := posted, returned := returned }.goto t p) where
  upper := upper
  queue := by
    have queue := inv.queue
    simp only [State.goto, State.absent, State.due] at *
    omega
  balance := by
    have before := inv.balance
    simp only [State.goto, State.due] at *
    omega
  places := places_update t inv.places here
  held := by
    intro u sec taken
    have other : u ≠ t := by
      rintro rfl
      exact away sec taken
    obtain ⟨home, ok⟩ := inv.held u sec taken
    refine ⟨by simpa [State.goto, other] using home, ?_⟩
    cases sec <;> simp only [Section.Ok] at *
    all_goals omega
  tracks := inv.tracks.congr (update_same Place.waits waits)
  sound := inv.sound

lemma goto (away : ∀ sec, s.mutex ≠ some (t, sec)) (here : p.Ok cfg)
    (waits : p.waits = (s.place t).waits) : Inv cfg (s.goto t p) where
  __ := inv
  places := places_update t inv.places here
  held := by
    intro u sec taken
    have other : u ≠ t := by
      rintro rfl
      exact away sec taken
    obtain ⟨home, ok⟩ := inv.held u sec taken
    exact ⟨by simpa [State.goto, other] using home, ok⟩
  tracks := inv.tracks.congr (update_same Place.waits waits)

lemma enter (free : s.mutex = none) (home : s.place t = sec.home)
    (ok : sec.Ok s.val) (absent : sec.absent = 0) (due : sec.due = 0) :
    Inv cfg { s with mutex := some (t, sec) } where
  __ := inv
  queue := by simpa [State.absent, State.due, free, absent, due] using inv.queue
  balance := by simpa [State.due, free, due] using inv.balance
  held := by
    rintro _ _ ⟨⟩
    exact ⟨home, ok⟩

lemma proceed {next : Section} {posted : Int} {sq : WaitQueue} {woken : List ThreadId}
    (upper : val ≤ cfg.max) (queue : (sq.length : Int) + next.absent = max (-val) 0 + next.due)
    (balance : cfg.initial + posted - (s.returned + woken.length) = max val 0 + next.due)
    (home : s.place t = next.home) (ok : next.Ok val)
    (tracks : Tracks (fun u => (s.place u).waits = true) sq [] woken) :
    Inv cfg ({ s with val := val, posted := posted, sq := sq, woken := woken }.within t next) where
  __ := inv
  upper := upper
  queue := queue
  balance := balance
  held := by
    rintro _ _ ⟨⟩
    exact ⟨home, ok⟩
  tracks := tracks

lemma finish {sq : WaitQueue} {woken : List ThreadId} {returned : Nat} {failed : Bool}
    (upper : val ≤ cfg.max) (queue : (sq.length : Int) = max (-val) 0)
    (balance : cfg.initial + s.posted - (returned + woken.length) = max val 0) (here : p.Ok cfg)
    (tracks : Tracks (fun u => (Function.update s.place t p u).waits = true) sq [] woken) (sound : failed = false) :
    Inv cfg (({ s with
        val := val
        sq := sq
        woken := woken
        returned := returned
        failed := failed }.goto t p).leave) where
  upper := upper
  queue := by simpa [State.absent, State.due, State.leave, State.goto] using queue
  balance := by simpa [State.due, State.leave, State.goto] using balance
  places := places_update t inv.places here
  held := fun _ _ free => by cases free
  tracks := tracks
  sound := sound

lemma counts_at (taken : s.mutex = some (t, sec)) :
    s.val ≤ cfg.max ∧ (s.sq.length : Int) + sec.absent = max (-s.val) 0 + sec.due ∧
      cfg.initial + s.posted - (s.returned + s.woken.length) = max s.val 0 + sec.due ∧
      -2 ^ 31 < s.val + sec.absent := by
  have lower := inv.lower
  have queue := inv.queue
  have balance := inv.balance
  simp only [State.absent, State.due, taken, map_some, getD_some] at lower queue balance
  exact ⟨inv.upper, queue, balance, lower⟩

end Inv

open List

variable {cfg : Config} {s s' : State} {t : ThreadId} {prio : ThreadId -> Prio}

variable (inv : Inv cfg s)

include inv

variable (away : ∀ sec, s.mutex ≠ some (t, sec))

include away

lemma take_inv
    (waits : (s.place t).waits = false) (some : 0 < s.val) :
    Inv cfg ({ s with val := s32 (s.val - 1), returned := s.returned + 1 }.goto t .idle) := by
  have upper := inv.upper
  have limit := cfg.max_lt
  rw [s32_eq (by omega) (by omega)]
  exact inv.lockfree away (by omega) (by omega) (by omega) (by push_cast; ring) trivial waits.symm

lemma sysSemaphoreWait_inv
    (at_ : s.place t = .idle) : Inv cfg (sysSemaphoreWait s t) := by
  unfold sysSemaphoreWait
  split
  next some => exact inv.goto away some (by rw [at_]; rfl)
  next => exact inv.goto away trivial (by rw [at_]; rfl)

lemma waitCas_inv {val : Int}
    (at_ : s.place t = .waitCas val) : Inv cfg (waitCas s t val) := by
  have here := inv.places t
  rw [at_] at here
  unfold waitCas
  split
  next same =>
    subst same
    exact take_inv inv away (by rw [at_]; rfl) here
  next => exact inv.goto away trivial (by rw [at_]; rfl)

lemma sysSemaphoreTrywait_inv
    (at_ : s.place t = .idle) : Inv cfg (sysSemaphoreTrywait s) := by
  unfold sysSemaphoreTrywait
  split
  next some =>
    have taken := take_inv inv away (by rw [at_]; rfl) some
    simpa only [State.goto, ← at_, Function.update_eq_self] using taken
  next => exact inv

omit away in
lemma waitDec_inv (taken : s.mutex = some (t, .waitDec)) :
    Inv cfg (waitDec s t) := by
  have home := (inv.held t _ taken).1
  obtain ⟨upper, queue, balance, lower⟩ := inv.counts_at taken
  have limit := cfg.max_lt
  simp only [Section.absent, Section.due] at queue balance lower
  unfold waitDec
  rw [s32_eq (by omega) (by omega)]
  split
  next none =>
    refine inv.proceed (by omega) ?_ ?_ home ?_ inv.tracks <;>
      simp only [Section.absent, Section.due, Section.Ok] <;> omega
  next some =>
    exact inv.finish (by omega) (by omega) (by omega) trivial
      (inv.tracks.congr (update_same Place.waits (by rw [home]; rfl))) inv.sound

omit away in
lemma waitEmplace_inv (taken : s.mutex = some (t, .waitEmplace)) :
    Inv cfg (waitEmplace s t) := by
  obtain ⟨home, negative⟩ := inv.held t _ taken
  obtain ⟨upper, queue, balance, _⟩ := inv.counts_at taken
  simp only [Section.absent, Section.due, Section.Ok] at queue balance negative
  refine inv.finish upper ?_ (by omega) trivial
    (inv.tracks.park (by simp [home, Section.home, Place.waits]) (update_park Place.waits rfl))
    inv.sound
  simp only [emplace, length_cons]
  omega

lemma waitReturn_inv
    (woken : t ∈ s.woken) : Inv cfg (s.waitReturn t) where
  __ := inv
  balance := by
    have balance := inv.balance
    have fewer := length_erase_of_mem woken
    have some := length_pos_of_mem woken
    simp only [State.waitReturn, State.goto, State.due] at *
    omega
  places := places_update t inv.places trivial
  held := by
    intro u sec taken
    have other : u ≠ t := by
      rintro rfl
      exact away sec taken
    obtain ⟨home, ok⟩ := inv.held u sec taken
    exact ⟨by simpa [State.waitReturn, State.goto, other] using home, ok⟩
  tracks := inv.tracks.leave_woken woken (update_leave Place.waits rfl)
  sound := by simp [State.waitReturn, woken, inv.sound]

omit away

lemma waitUnqueue_inv (taken : s.mutex = some (t, .waitUnqueue)) :
    Inv cfg (waitUnqueue s t) := by
  have home := (inv.held t _ taken).1
  obtain ⟨upper, queue, balance, _⟩ := inv.counts_at taken
  simp only [Section.absent, Section.due] at queue balance
  unfold waitUnqueue unqueue
  split
  next missing =>
    have outside : t ∉ s.sq := by simpa using missing
    have woken := inv.tracks.ready rfl (by rw [home]; rfl) outside
    have fewer := length_erase_of_mem woken
    have some := length_pos_of_mem woken
    refine inv.finish (t := t) (p := .idle) upper (by omega) ?_ trivial
      (inv.tracks.leave_woken woken (update_leave Place.waits rfl)) (by simp [woken, inv.sound])
    push_cast
    omega
  next sq found =>
    obtain ⟨queued, rfl⟩ := Option.ite_some_none_eq_some.mp found
    have fewer := length_erase_of_mem queued
    have some := length_pos_of_mem queued
    exact {
      upper := upper
      queue := by
        change ((s.sq.erase t).length : Int) + (1 : Nat) = max (-s.val) 0 + (0 : Nat)
        omega
      balance := balance
      places := places_update t inv.places trivial
      held := by
        rintro _ _ ⟨⟩
        refine ⟨Function.update_self .., ?_⟩
        change s.val < 0
        omega
      tracks := inv.tracks.leave_queue queued (update_leave Place.waits rfl)
      sound := inv.sound }

lemma waitInc_inv (taken : s.mutex = some (t, .waitInc)) :
    Inv cfg (waitInc s t) := by
  obtain ⟨home, negative⟩ := inv.held t _ taken
  obtain ⟨upper, queue, balance, lower⟩ := inv.counts_at taken
  have capacity := cfg.initial_nonneg.trans cfg.initial_le
  simp only [Section.absent, Section.due, Section.Ok] at queue balance negative lower
  unfold waitInc
  rw [if_pos negative, s32_eq (by omega) (by omega)]
  exact inv.finish (by omega) (by omega) (by omega) trivial
    (inv.tracks.congr (update_same Place.waits (by rw [home]; rfl))) (by simp [negative, inv.sound])

variable {count : Int}

include away

lemma sysSemaphorePost_inv (at_ : s.place t = .idle)
    (small : count < 2 ^ 31) :
    Inv cfg (sysSemaphorePost cfg s t count) := by
  have upper := inv.upper
  have limit := cfg.max_lt
  unfold sysSemaphorePost
  split
  next ready =>
    obtain ⟨nonneg, some, fits⟩ := ready
    rw [s32_eq (by omega) (by omega)] at fits
    exact inv.goto away ⟨nonneg, some, by omega⟩ (by rw [at_]; rfl)
  next =>
    split
    next => exact inv
    next some => exact inv.goto away ⟨by omega, small⟩ (by rw [at_]; rfl)

lemma postCas_inv {val : Int}
    (at_ : s.place t = .postCas val count) : Inv cfg (postCas s t val count) := by
  have here := inv.places t
  rw [at_] at here
  obtain ⟨nonneg, some, fits⟩ := here
  have limit := cfg.max_lt
  unfold postCas
  split
  next same =>
    subst same
    rw [s32_eq (by omega) (by omega)]
    exact inv.lockfree away nonneg (by omega) fits (by ring) trivial (by rw [at_]; rfl)
  next => exact inv.goto away ⟨some, by omega⟩ (by rw [at_]; rfl)

omit away

lemma postOp_inv (taken : s.mutex = some (t, .postOp count)) :
    Inv cfg (postOp cfg s t count) := by
  have home := (inv.held t _ taken).1
  have here := inv.places t
  rw [home] at here
  obtain ⟨some, small⟩ := here
  obtain ⟨upper, queue, balance, lower⟩ := inv.counts_at taken
  simp only [Section.absent, Section.due] at queue balance lower
  have limit := cfg.max_lt
  unfold postOp
  rw [u32_eq (by omega) (by omega), u32_eq (by omega) (by omega)]
  split
  next fits =>
    rw [s32_eq (by omega) (by omega)]
    refine inv.proceed (by omega) ?_ ?_ home trivial inv.tracks <;>
      simp only [Section.absent, Section.due, toAwake] <;> omega
  next =>
    exact inv.finish upper (by omega) (by omega) trivial
      (inv.tracks.congr (update_same Place.waits (by rw [home]; rfl))) inv.sound

lemma postWake_inv {left : Nat} (taken : s.mutex = some (t, .postWake count left)) :
    Inv cfg (postWake cfg prio s t count left) := by
  have home := (inv.held t _ taken).1
  obtain ⟨upper, queue, balance, _⟩ := inv.counts_at taken
  simp only [Section.absent, Section.due] at queue balance
  cases left with
  | zero =>
    exact inv.finish upper (by omega) (by omega) trivial
      (inv.tracks.congr (update_same Place.waits (by rw [home]; rfl))) inv.sound
  | succ left =>
    simp only [postWake]
    split
    next cpu sq chosen =>
      have picked := schedule_perm chosen
      have count := picked.length_eq
      have moved : (s.sq ++ [] ++ s.woken).Perm (sq ++ [] ++ cpu :: s.woken) := by
        simpa using (picked.append_right s.woken).trans perm_middle.symm
      simp only [length_cons] at count
      refine inv.proceed upper ?_ ?_ home trivial (inv.tracks.move moved) <;>
        simp only [Section.absent, Section.due, length_cons] <;> omega
    next none =>
      rw [schedule_eq_none.mp none, length_nil] at queue
      omega

lemma inside_inv {sec : Section} (taken : s.mutex = some (t, sec)) :
    Inv cfg (inside cfg prio s t sec) := by
  cases sec with
  | waitDec => exact waitDec_inv inv taken
  | waitEmplace => exact waitEmplace_inv inv taken
  | waitUnqueue => exact waitUnqueue_inv inv taken
  | waitInc => exact waitInc_inv inv taken
  | postOp count => exact postOp_inv inv taken
  | postWake count left => exact postWake_inv inv taken

lemma call_inv (away : ∀ sec, s.mutex ≠ some (t, sec))
    (at_ : s.place t = .idle) (c : Call) : Inv cfg (call cfg s t c) := by
  cases c with
  | wait => exact sysSemaphoreWait_inv inv away at_
  | trywait => exact sysSemaphoreTrywait_inv inv away at_
  | post count => exact sysSemaphorePost_inv inv away at_ BitVec.toInt_lt

lemma enter_inv {sec : Section} (ran : s.enter t sec = some s')
    (home : s.place t = sec.home) (ok : sec.Ok s.val) (absent : sec.absent = 0)
    (due : sec.due = 0) : Inv cfg s' := by
  obtain ⟨free, rfl⟩ := ite_some_none_eq_some.mp ran
  exact inv.enter free home ok absent due

lemma outside_inv {a : Action} (away : ∀ sec, s.mutex ≠ some (a.thread, sec))
    (ran : outside cfg s a = some s') : Inv cfg s' := by
  unfold outside at ran
  split at ran
  next at_ =>
    cases ran
    exact call_inv inv away at_ a.call
  next val at_ =>
    cases ran
    exact waitCas_inv inv away at_
  next at_ => exact enter_inv inv ran at_ trivial rfl rfl
  next at_ =>
    split at ran
    next =>
      cases ran
      exact inv.goto away trivial (by rw [at_]; rfl)
    next =>
      obtain ⟨woken, rfl⟩ := ite_some_none_eq_some.mp ran
      exact waitReturn_inv inv away woken
  next at_ => exact enter_inv inv ran at_ trivial rfl rfl
  next => cases ran
  next val count at_ =>
    cases ran
    exact postCas_inv inv away at_
  next count at_ => exact enter_inv inv ran at_ trivial rfl rfl

lemma step_inv {a : Action} : step cfg s a = some s' -> Inv cfg s' := by
  fun_cases step cfg s a with
  | case1 sec taken =>
    rintro ⟨⟩
    exact inside_inv inv taken
  | case2 t sec taken other => exact outside_inv inv (by simp [taken, other])
  | case3 free => exact outside_inv inv (by simp [free])

omit inv

lemma reachable_inv (reach : (system cfg).Reachable s) : Inv cfg s := by
  refine reach.invariant ?_ ?_
  · rintro _ rfl
    exact start_inv cfg
  · intro _ _ _ inv ran
    exact step_inv inv ran

theorem semaphore_conserved (cfg : Config) (s : State) (reach : (system cfg).Reachable s) :
    s.failed = false ∧
    (s.mutex = none ->
      s.val ≤ cfg.max ∧ (s.val < 0 -> (s.sq.length : Int) = -s.val) ∧ (0 ≤ s.val -> s.sq = []) ∧
      cfg.initial + s.posted - (s.returned + s.woken.length) = max s.val 0) := by
  have inv := reachable_inv reach
  refine ⟨inv.sound, fun free => ?_⟩
  have queue := inv.queue
  have balance := inv.balance
  simp only [State.absent, State.due, free, map_none, getD_none] at queue balance
  refine ⟨inv.upper, by omega, fun nonneg => eq_nil_of_length_eq_zero (by omega), by omega⟩

def binary : Config := ⟨.priority, 0, 2, by decide, by decide, by decide⟩

def waitThenPost : List Action :=
  List.replicate 4 ⟨ThreadId.nth 0, .wait, false, fun _ => ⟨0, 0⟩⟩ ++
  List.replicate 5 ⟨ThreadId.nth 1, .post 2, false, fun _ => ⟨0, 0⟩⟩

theorem semaphore_conserved_posted : ∃ s, (system binary).Reachable s ∧ s.val = 1 ∧
    s.woken = [ThreadId.nth 0] ∧ s.sq = [] ∧ binary.initial + s.posted - (s.returned + s.woken.length) = 1 := by
  have ran := (some_get
    (show ((system binary).run (start binary) waitThenPost).isSome by decide)).symm
  have reach := (Transition.System.Reachable.init rfl).run _ ran
  obtain ⟨_, settled⟩ := semaphore_conserved binary _ reach
  obtain ⟨_, _, empty, balance⟩ := settled rfl
  exact ⟨_, reach, rfl, rfl, empty (by decide), balance⟩

theorem wait_not_lost (cfg : Config) (s : State) (reach : (system cfg).Reachable s) (free : s.mutex = none)
    (unit : 0 ≤ s.val) (t : ThreadId) (waits : (s.place t).waits = true) : t ∈ s.woken := by
  have inv := reachable_inv reach
  have queue := inv.queue
  simp only [State.absent, State.due, free, map_none, getD_none] at queue
  have empty : s.sq = [] := List.eq_nil_of_length_eq_zero (by omega)
  exact inv.tracks.ready rfl waits (by simp [empty])

theorem wait_not_lost_posted : ∃ s : State, s.val = 1 ∧ ThreadId.nth 0 ∈ s.woken := by
  have ran := (some_get (show ((system binary).run (start binary) waitThenPost).isSome by decide)).symm
  have reach := (Transition.System.Reachable.init rfl).run _ ran
  exact ⟨_, rfl, wait_not_lost binary _ reach rfl (by decide) _ rfl⟩

end EmuCore.Lv2.Semaphore
