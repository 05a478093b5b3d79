import EmuCore.Lib.Parking
import EmuCore.Lv2.EventQueue

namespace EmuCore.Lv2.EventQueue

open Parking List Function

def Place.waits : Place -> Bool
  | .receiveWait | .receiveSync | .receiveTimeout => true
  | _ => false

def Section.waits : Section -> Bool
  | .receiveUnqueue => true
  | _ => false

def Section.threads : Section -> List ThreadId
  | .sendStore cpu _ => [cpu]
  | _ => []

def Section.taken : Section -> List Item
  | .tryreceiveLoop _ events => events
  | _ => []

def Section.direct : Section -> List Item
  | .sendStore _ item => [item]
  | _ => []

namespace State

variable (s : State)

def handThreads : List ThreadId := (s.mutex.map fun held => held.2.threads).getD []

def handTaken : List Item := (s.mutex.map fun held => held.2.taken).getD []

def handDirect : List Item := (s.mutex.map fun held => held.2.direct).getD []

def inFlight : List Item := s.woken.filterMap s.gpr

def ledger : Ledger where
  events := s.events
  taken := s.handTaken
  direct := s.handDirect ++ s.inFlight
  dropped := s.dropped
  accepted := s.accepted
  refused := s.refused
  received := s.received
  calls := s.calls

end State

structure Inv (cfg : Config) (s : State) : Prop where
  queues : s.pq ≠ [] -> s.events = []
  ledger : s.ledger.Ok cfg.size
  sync : ∀ t, s.place t = .receiveSync -> t ∉ s.pq
  held : ∀ t sec, s.mutex = some (t, sec) -> (s.place t).waits = sec.waits
  blank : ∀ t ∈ s.pq ++ s.handThreads, s.gpr3 t = .ok ∧ s.gpr t = none
  given : ∀ t ∈ s.woken,
    (s.gpr3 t = .ok ∧ (s.gpr t).isSome) ∨ (s.gpr3 t = .canceled ∧ s.gpr t = none)
  tracks : Tracks (fun u => (s.place u).waits = true) s.pq s.handThreads s.woken
  sound : s.failed = false

lemma start_inv (cfg : Config) : Inv cfg start where
  queues := fun _ => rfl
  ledger := ⟨Nat.zero_le _, .refl _, .refl _, nodup_nil, by simp [start, State.ledger]⟩
  sync := by simp [start]
  held := by simp [start]
  blank := by simp [start, State.handThreads]
  given := by simp [start]
  tracks := ⟨by simp [start, State.handThreads], by simp [start, State.handThreads, Place.waits]⟩
  sound := rfl

lemma filterMap_update {gpr : ThreadId -> Option Item} {t : ThreadId} {value : Option Item}
    {threads : List ThreadId} (outside : t ∉ threads) :
    threads.filterMap (update gpr t value) = threads.filterMap gpr := by
  refine filterMap_congr fun u member => ?_
  have other : u ≠ t := fun same => outside (same ▸ member)
  simp [other]

lemma filterMap_erase (gpr : ThreadId -> Option Item) {t : ThreadId} {threads : List ThreadId}
    (member : t ∈ threads) :
    (threads.filterMap gpr).Perm ((gpr t).toList ++ (threads.erase t).filterMap gpr) := by
  have moved := (perm_cons_erase member).filterMap gpr
  rw [filterMap_cons] at moved
  cases value : gpr t <;> simpa [value] using moved

lemma sync_update {place : ThreadId -> Place} {t : ThreadId} {p : Place} {pq pq' : WaitQueue}
    (sync : ∀ u, place u = .receiveSync -> u ∉ pq) (here : p = .receiveSync -> t ∉ pq')
    (kept : ∀ u, u ≠ t -> u ∈ pq' -> u ∈ pq) (u : ThreadId)
    (at_ : update place t p u = .receiveSync) : u ∉ pq' := by
  by_cases same : u = t
  · subst same
    exact here (by simpa using at_)
  · exact fun member => sync u (by simpa [same] using at_) (kept u same member)

namespace Inv

variable {cfg : Config} {s : State} {t : ThreadId} {sec next : Section}

variable (inv : Inv cfg s)

include inv

lemma held_update (away : ∀ sec, s.mutex ≠ some (t, sec)) (p : Place)
    (u : ThreadId) (sec : Section) (taken : s.mutex = some (u, sec)) :
    (update s.place t p u).waits = sec.waits := by
  have other : u ≠ t := by
    rintro rfl
    exact away sec taken
  simpa [other] using inv.held u sec taken

lemma goto (away : ∀ sec, s.mutex ≠ some (t, sec)) {p : Place}
    (waits : p.waits = (s.place t).waits) (here : p = .receiveSync -> t ∉ s.pq) :
    Inv cfg (s.goto t p) where
  __ := inv
  sync := sync_update inv.sync here fun _ _ => id
  held := inv.held_update away p
  tracks := inv.tracks.congr (update_same Place.waits waits)

lemma enter (free : s.mutex = none) (waits : (s.place t).waits = sec.waits)
    (noThreads : sec.threads = []) (noTaken : sec.taken = []) (noDirect : sec.direct = []) :
    Inv cfg { s with mutex := some (t, sec) } where
  __ := inv
  ledger := by
    have same : State.ledger { s with mutex := some (t, sec) } = s.ledger := by
      simp [State.ledger, State.handTaken, State.handDirect, State.inFlight, free, noTaken, noDirect]
    exact same ▸ inv.ledger
  held := by
    rintro _ _ ⟨⟩
    exact waits
  blank := by simpa [State.handThreads, free, noThreads] using inv.blank
  tracks := by simpa [State.handThreads, free, noThreads] using inv.tracks

variable (taken : s.mutex = some (t, sec))

include taken

lemma tracks_at :
    Tracks (fun u => (s.place u).waits = true) s.pq sec.threads s.woken := by
  simpa [State.handThreads, taken] using inv.tracks

lemma blank_at :
    ∀ u ∈ s.pq ++ sec.threads, s.gpr3 u = .ok ∧ s.gpr u = none := by
  simpa [State.handThreads, taken] using inv.blank

lemma ledger_at :
    Ledger.Ok cfg.size { s.ledger with taken := sec.taken, direct := sec.direct ++ s.inFlight } := by
  simpa [State.ledger, State.handTaken, State.handDirect, taken] using inv.ledger

lemma finish {l : Ledger}
    {alive : Bool} (ledger : Ledger.Ok cfg.size l) (noTaken : l.taken = [])
    (direct : l.direct = s.inFlight) (queues : s.pq ≠ [] -> l.events = [])
    (noThreads : sec.threads = []) (waits : sec.waits = false) :
    Inv cfg (({ s with
        alive := alive
        events := l.events
        calls := l.calls
        accepted := l.accepted
        refused := l.refused
        received := l.received
        dropped := l.dropped }.goto t .idle).leave) where
  __ := inv
  queues := queues
  ledger := by
    have same : l = { l with taken := [], direct := [] ++ s.inFlight } := by
      rw [nil_append, ← direct, ← noTaken]
    exact same ▸ ledger
  sync := sync_update inv.sync (fun at_ => by cases at_) fun _ _ => id
  held := fun _ _ free => by cases free
  blank := by
    have blank := inv.blank_at taken
    rw [noThreads] at blank
    exact blank
  tracks := (noThreads ▸ inv.tracks_at taken).congr
    (update_same Place.waits (by rw [inv.held t sec taken, waits]; rfl))

end Inv

variable {cfg : Config} {s : State} {t cpu : ThreadId} {prio : ThreadId -> Prio}

variable (inv : Inv cfg s)

include inv

lemma refuse_inv {event : Event} (taken : s.mutex = some (t, .sendOp event)) :
    Inv cfg (((s.refuse ⟨s.calls, event⟩).goto t .idle).leave) :=
  inv.finish taken ((inv.ledger_at taken).refuse rfl) rfl rfl inv.queues rfl rfl

lemma sendOp_inv {event : Event} (taken : s.mutex = some (t, .sendOp event)) :
    Inv cfg (sendOp cfg prio s t event) := by
  have ledger := inv.ledger_at taken
  unfold sendOp
  split
  next => exact refuse_inv inv taken
  split
  next none =>
    have empty := schedule_eq_none.mp none
    split
    next room =>
      exact inv.finish taken (ledger.push rfl room) rfl rfl (fun some => absurd empty some) rfl rfl
    next => exact refuse_inv inv taken
  next cpu pq chosen =>
    have picked := schedule_perm chosen
    exact { inv with
      queues := fun _ => inv.queues fun empty => by simp [empty] at picked
      ledger := ledger.hand rfl (.refl _)
      sync := fun u at_ member =>
        inv.sync u at_ (picked.mem_iff.mpr (mem_cons_of_mem cpu member))
      held := by
        rintro _ _ ⟨⟩
        exact inv.held t (.sendOp event) taken
      blank := by
        intro u member
        change u ∈ pq ++ [cpu] at member
        refine inv.blank_at taken u ?_
        have among : u ∈ cpu :: pq := by simpa [or_comm] using member
        simpa [Section.threads] using picked.mem_iff.mpr among
      tracks := (inv.tracks_at taken).move (by
        change (s.pq ++ [] ++ s.woken).Perm (pq ++ [cpu] ++ s.woken)
        simpa using (picked.append_right s.woken).trans perm_middle.symm) }

lemma sendStore_inv {item : Item}
    (taken : s.mutex = some (t, .sendStore cpu item)) : Inv cfg (sendStore s t cpu item) := by
  have tracks := inv.tracks_at taken
  have nodup := tracks.nodup
  simp only [Section.threads, append_assoc, singleton_append] at nodup
  have middle := nodup_middle.mp nodup
  have apart : cpu ∉ s.pq ∧ cpu ∉ s.woken := by simpa using (nodup_cons.mp middle).1
  have blank := inv.blank_at taken cpu (by simp [Section.threads])
  exact { inv with
    ledger := by
      have ledger := (inv.ledger_at taken).redirect (List.Perm.refl _)
      have same : (sendStore s t cpu item).inFlight = item :: s.inFlight := by
        simp [sendStore, State.inFlight, State.leave, State.goto, filterMap_update apart.2]
      have whole : (sendStore s t cpu item).ledger =
          { s.ledger with taken := [], direct := item :: s.inFlight } := by
        simp only [State.ledger, same]
        rfl
      exact whole ▸ ledger
    sync := sync_update inv.sync (fun at_ => by cases at_) fun _ _ => id
    held := fun _ _ free => by cases free
    blank := by
      intro u member
      have queued : u ∈ s.pq := by simpa using (show u ∈ s.pq ++ [] from member)
      have other : u ≠ cpu := fun same => apart.1 (same ▸ queued)
      have before := inv.blank_at taken u (mem_append_left _ queued)
      exact ⟨before.1, by simpa [sendStore, State.leave, State.goto, other] using before.2⟩
    given := by
      intro u member
      by_cases same : u = cpu
      · subst same
        exact .inl ⟨blank.1, by simp [sendStore, State.leave, State.goto]⟩
      · have older : u ∈ s.woken := by
          simpa [sendStore, State.leave, State.goto, same] using member
        simpa [sendStore, State.leave, State.goto, same] using inv.given u older
    tracks := by
      have moved : Tracks _ s.pq [] (cpu :: s.woken) := tracks.move (by simp [Section.threads])
      exact moved.congr (update_same Place.waits (by rw [inv.held t _ taken]; rfl)) }

lemma receiveOp_inv (taken : s.mutex = some (t, .receiveOp)) :
    Inv cfg (receiveOp s t) := by
  have ledger := inv.ledger_at taken
  unfold receiveOp
  split
  next empty =>
    have away : ¬ ((s.place t).waits = true) := by simp [inv.held t _ taken, Section.waits]
    have apart : t ∉ s.woken := fun member =>
      away ((inv.tracks.mem t).mp (mem_append_right _ member))
    exact {
      queues := fun _ => empty
      ledger := by
        have same : ∀ s', s' = (({ s with
            pq := emplace s.pq t
            gpr3 := Function.update s.gpr3 t .ok
            gpr := Function.update s.gpr t none }.goto t .receiveWait).leave) ->
            s'.ledger = { s.ledger with taken := [], direct := s.inFlight } := by
          rintro s' rfl
          simp only [State.ledger, State.inFlight, State.leave, State.goto, filterMap_update apart]
          rfl
        exact same _ rfl ▸ ledger
      sync := sync_update inv.sync (fun at_ => by cases at_)
        fun u other member => (mem_cons.mp member).resolve_left other
      held := fun _ _ free => by cases free
      blank := by
        intro u member
        by_cases same : u = t
        · subst same
          simp [State.leave, State.goto]
        have queued : u ∈ s.pq := by
          simpa [State.leave, State.goto, emplace, State.handThreads, same] using member
        simpa [State.leave, State.goto, same] using
          inv.blank_at taken u (mem_append_left _ queued)
      given := by
        intro u member
        have other : u ≠ t := fun same => apart (same ▸ member)
        simpa [State.leave, State.goto, other] using inv.given u member
      tracks := (inv.tracks_at taken).park away (update_park Place.waits rfl)
      sound := inv.sound }
  next item rest front =>
    have noWaiter : s.pq = [] := by
      by_contra some
      simp [inv.queues some] at front
    have delivered := (ledger.take front).deliver_taken t
    exact inv.finish taken delivered rfl rfl (fun some => absurd noWaiter some) rfl rfl

lemma leave_inv {sec : Section} (taken : s.mutex = some (t, sec))
    (noThreads : sec.threads = []) (noTaken : sec.taken = []) (noDirect : sec.direct = []) :
    Inv cfg s.leave where
  __ := inv
  ledger := by
    have ledger := inv.ledger_at taken
    rw [noTaken, noDirect] at ledger
    exact ledger
  held := fun _ _ free => by cases free
  blank := by
    have blank := inv.blank_at taken
    rw [noThreads] at blank
    exact blank
  tracks := by
    have tracks := inv.tracks_at taken
    rw [noThreads] at tracks
    exact tracks

-- A woken thread returns with the event in its registers, or with the error of the destroy.
lemma receiveReturn_cases (woken : t ∈ s.woken) :
    ∃ items, (s.gpr t).toList = items ∧ s.receiveReturn t =
      { s.goto t .idle with
        woken := s.woken.erase t
        received := s.received ++ deliver t false items } := by
  unfold State.receiveReturn
  rcases inv.given t woken with ⟨code, some⟩ | ⟨code, none⟩
  · obtain ⟨item, value⟩ := Option.isSome_iff_exists.mp some
    exact ⟨[item], by simp [value], by simp [State.goto, code, value]⟩
  · exact ⟨[], by simp [none], by simp [State.goto, code, none, deliver]⟩

lemma receiveReturn_inv (away : ∀ sec, s.mutex ≠ some (t, sec))
    (woken : t ∈ s.woken) : Inv cfg (s.receiveReturn t) := by
  obtain ⟨items, value, same⟩ := receiveReturn_cases inv woken
  have moved : (s.handDirect ++ s.inFlight).Perm
      (items ++ (s.handDirect ++ (s.woken.erase t).filterMap s.gpr)) := by
    have erased := (filterMap_erase s.gpr woken).append_left s.handDirect
    rw [value] at erased
    refine erased.trans ?_
    rw [← append_assoc, ← append_assoc]
    exact perm_append_comm.append_right _
  rw [same]
  exact { inv with
    ledger := inv.ledger.deliver_waiters t moved
    sync := sync_update inv.sync (fun at_ => by cases at_) fun _ _ => id
    held := inv.held_update away .idle
    given := fun u member => inv.given u (mem_of_mem_erase member)
    tracks := inv.tracks.leave_woken woken (update_leave Place.waits rfl) }

lemma receiveSync_woken (free : s.mutex = none)
    (at_ : s.place t = .receiveSync) : t ∈ s.woken := by
  exact inv.tracks.ready (by simp [State.handThreads, free]) (by rw [at_]; rfl) (inv.sync t at_)

lemma receiveProbe_inv (away : ∀ sec, s.mutex ≠ some (t, sec))
    (at_ : s.place t = .receiveWait) : Inv cfg (receiveProbe s t) := by
  unfold receiveProbe
  split
  next empty => exact inv.goto away (by rw [at_]; rfl) (by simp [empty])
  next => exact inv.goto away (by rw [at_]; rfl) (fun other => by cases other)

lemma receiveUnqueue_inv (taken : s.mutex = some (t, .receiveUnqueue)) :
    Inv cfg (receiveUnqueue s t) := by
  have free := leave_inv inv taken rfl rfl rfl
  have waits : (s.place t).waits = true := inv.held t _ taken
  unfold receiveUnqueue unqueue
  split
  next missing =>
    have outside : t ∉ s.pq := by simpa using missing
    have woken := free.tracks.ready rfl waits outside
    have same : (s.receiveReturn t).leave = s.leave.receiveReturn t := by
      simp only [State.receiveReturn, State.leave, State.goto]
      split <;> rfl
    rw [same]
    exact receiveReturn_inv free (fun _ taken => by cases taken) woken
  next pq found =>
    obtain ⟨queued, rfl⟩ := Option.ite_some_none_eq_some.mp found
    have blank := (inv.blank_at taken t (mem_append_left _ queued)).2
    exact {
      queues := fun _ => inv.queues (ne_nil_of_mem queued)
      ledger := free.ledger
      sync := sync_update inv.sync (fun at_ => by cases at_) fun _ _ => mem_of_mem_erase
      held := fun _ _ free => by cases free
      blank := by
        intro u member
        have left : u ∈ s.pq.erase t := by simpa using (show u ∈ s.pq.erase t ++ [] from member)
        exact inv.blank_at taken u (mem_append_left _ (mem_of_mem_erase left))
      given := inv.given
      tracks := (inv.tracks_at taken).leave_queue queued (update_leave Place.waits rfl)
      sound := by simp [State.leave, State.goto, inv.sound, blank] }

lemma tryreceiveExists_inv {size : Int}
    (taken : s.mutex = some (t, .tryreceiveExists size)) : Inv cfg (tryreceiveExists s t size) := by
  have free := leave_inv inv taken rfl rfl rfl
  unfold tryreceiveExists
  split
  next => exact free.enter rfl (inv.held t (.tryreceiveExists size) taken) rfl rfl rfl
  next => exact inv.finish taken (inv.ledger_at taken) rfl rfl inv.queues rfl rfl

lemma tryreceiveLoop_inv {size : Int} {events : List Item}
    (taken : s.mutex = some (t, .tryreceiveLoop size events)) :
    Inv cfg (tryreceiveLoop s t size events) := by
  have ledger := inv.ledger_at taken
  have delivered : Inv cfg
      (({ s with received := s.received ++ deliver t true events }.goto t .idle).leave) :=
    inv.finish taken (ledger.deliver_taken t) rfl rfl inv.queues rfl rfl
  unfold tryreceiveLoop
  split
  next => exact delivered
  next item rest front =>
    split
    next =>
      have small : events.length < 127 := by
        have size : s.events.length + events.length ≤ cfg.size := ledger.size
        have limit := cfg.size_le
        rw [front, length_cons] at size
        omega
      have noWaiter : s.pq = [] := by
        by_contra some
        simp [inv.queues some] at front
      exact { inv with
        queues := fun some => absurd noWaiter some
        ledger := ledger.take front
        held := by
          rintro _ _ ⟨⟩
          exact inv.held t (.tryreceiveLoop size events) taken
        blank := inv.blank_at taken
        tracks := inv.tracks_at taken
        sound := by simp [State.within, inv.sound, small] }
    next => exact delivered

lemma drainOp_inv (taken : s.mutex = some (t, .drainOp)) :
    Inv cfg (drainOp s t) :=
  inv.finish taken (inv.ledger_at taken).drop rfl rfl (fun _ => rfl) rfl rfl

lemma destroyOp_inv {mode : Int} (taken : s.mutex = some (t, .destroyOp mode)) :
    Inv cfg (destroyOp s t mode) := by
  have ledger := inv.ledger_at taken
  unfold destroyOp
  split
  next => exact inv.finish taken ledger rfl rfl inv.queues rfl rfl
  split
  next => exact inv.finish taken ledger rfl rfl inv.queues rfl rfl
  exact { inv with
    ledger := ledger
    held := by
      rintro _ _ ⟨⟩
      exact inv.held t (.destroyOp mode) taken
    blank := inv.blank_at taken
    tracks := inv.tracks_at taken }

lemma destroyCancel_inv (taken : s.mutex = some (t, .destroyCancel)) :
    Inv cfg (destroyCancel s t) := by
  have tracks := inv.tracks_at taken
  have blank := inv.blank_at taken
  have apart : ∀ u ∈ s.woken, u ∉ s.pq := fun u woken queued =>
    disjoint_of_nodup_append tracks.nodup (mem_append_left _ queued) woken
  have silent : s.pq.filterMap s.gpr = [] :=
    filterMap_eq_nil_iff.mpr fun u queued => (blank u (mem_append_left _ queued)).2
  exact {
    queues := fun some => absurd rfl some
    ledger := by
      have same : (destroyCancel s t).ledger =
          { s.ledger with taken := [], direct := s.inFlight } := by
        simp only [State.ledger, State.inFlight, destroyCancel, State.leave, State.goto,
          filterMap_append, silent]
        rfl
      exact same ▸ inv.ledger_at taken
    sync := fun _ _ member => by cases member
    held := fun _ _ free => by cases free
    blank := fun _ member => by cases member
    given := by
      intro u member
      change ((if u ∈ s.pq then Code.canceled else s.gpr3 u) = .ok ∧ (s.gpr u).isSome) ∨
        ((if u ∈ s.pq then Code.canceled else s.gpr3 u) = .canceled ∧ s.gpr u = none)
      rcases mem_append.mp member with queued | woken
      · exact .inr ⟨if_pos queued, (blank u (mem_append_left _ queued)).2⟩
      · simpa [apart u woken] using inv.given u woken
    tracks := by
      have moved : Tracks _ [] [] (s.pq ++ s.woken) := tracks.move (by simp [Section.threads])
      exact moved.congr (update_same Place.waits (by rw [inv.held t _ taken]; rfl))
    sound := inv.sound }

end EmuCore.Lv2.EventQueue
