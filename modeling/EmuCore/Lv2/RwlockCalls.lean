import EmuCore.Lv2.RwlockSteps

namespace EmuCore.Lv2.Rwlock

open Parking List

variable {s s' : State} {t cpu : ThreadId} {protocol : Protocol} {prio : ThreadId -> Prio}

variable (inv : Inv s)

include inv

variable (away : ∀ sec, s.mutex ≠ some (t, sec))

include away

lemma sysRwlockRlock_inv
    (at_ : s.place t = .idle) : Inv (sysRwlockRlock s t) := by
  unfold sysRwlockRlock
  split
  next ready => exact inv.goto away at_ ready rfl rfl
  next => exact inv.goto away at_ trivial rfl rfl

lemma take_read_inv
    {p : Place} (at_ : s.place t = p) (reading : p.waitsRead = false) (writing : p.waitsWrite = false)
    (ready : s.owner ≤ 0 ∧ waitBit s.owner = false) :
    Inv ((s.takeRead t (s.owner - 2)).goto t .idle) := by
  have after : waitBit (s.owner - 2) = false := by
    have before := ready.2
    rw [waitBit_eq_false] at *
    omega
  exact inv.lockfree away at_ (inv.word.take_read t ready.1 ready.2) ready.2 after trivial
    reading.symm writing.symm (fun _ _ => mem_cons_of_mem t) fun _ _ => Iff.rfl

lemma rlockCas_inv {val : Int}
    (at_ : s.place t = .rlockCas val) : Inv (rlockCas s t val) := by
  have here := inv.places t
  rw [at_] at here
  unfold rlockCas
  split
  next same =>
    subst same
    exact take_read_inv inv away at_ rfl rfl here
  next => exact inv.goto away at_ trivial rfl rfl

lemma sysRwlockTryrlock_inv
    (at_ : s.place t = .idle) : Inv (sysRwlockTryrlock s t) := by
  unfold sysRwlockTryrlock
  split
  next ready =>
    have taken := take_read_inv inv away at_ rfl rfl ready
    have same : (s.takeRead t (s.owner - 2)).goto t .idle = s.takeRead t (s.owner - 2) := by
      simp only [State.goto, State.takeRead, ← at_, Function.update_eq_self]
    exact same ▸ taken
  next => exact inv

omit away in
lemma rlockOp_inv (taken : s.mutex = some (t, .rlockOp)) : Inv (rlockOp s t) := by
  have quiet := inv.section_ok taken
  unfold rlockOp
  split
  next ready =>
    refine inv.finish taken (inv.word.take_read t ready.1 ready.2)
      (fun queued => absurd (inv.bit queued) (by simp [ready.2])) (fun _ set => ?_)
      (fun _ _ => mem_cons_of_mem t) (fun _ _ => Iff.rfl) rfl rfl rfl rfl
    have clear := ready.2
    rw [waitBit_eq_false] at clear
    rw [waitBit_eq_true] at set
    omega
  next busy =>
    have held : s.owner ≠ 0 := fun zero => busy (by simp [zero, waitBit])
    refine inv.proceed taken (inv.word.set_wait_bit held) (fun _ => waitBit_setWaitBit s.owner)
      ⟨waitBit_setWaitBit s.owner, fun negative _ => ?_⟩ rfl rfl rfl
    rw [setWaitBit_neg] at negative
    refine quiet negative ?_
    by_contra clear
    exact busy ⟨by omega, by simpa using clear⟩

omit away in
lemma rlockEmplace_inv (taken : s.mutex = some (t, .rlockEmplace)) :
    Inv (rlockEmplace s t) := by
  have home := inv.home taken
  obtain ⟨set, quiet⟩ := inv.section_ok taken
  exact { inv with
    bit := fun _ => set
    places := places_update inv.places trivial
      (fun u other member => (mem_cons.mp member).resolve_left other)
      (fun _ _ => id) fun _ _ _ => Iff.rfl
    held := quiet
    rtracks := (inv.rtracks_at taken).park (by simp [home, Section.home, Place.waitsRead])
      (update_park Place.waitsRead rfl)
    wtracks := (inv.wtracks_at taken).congr (update_same Place.waitsWrite (by rw [home]; rfl)) }

lemma rlockProbe_inv
    (at_ : s.place t = .rlockWait) : Inv (rlockProbe s t) := by
  unfold rlockProbe
  split
  next empty =>
    exact inv.goto away at_ (by simp [Place.Ok, empty]) rfl rfl
  next => exact inv.goto away at_ trivial rfl rfl

lemma rlockReturn_inv
    (woken : t ∈ s.wokenReaders) (writing : (s.place t).waitsWrite = false) :
    Inv (s.rlockReturn t) where
  __ := inv
  places := places_update inv.places trivial (fun _ _ => id) (fun _ _ => id) fun _ _ _ => Iff.rfl
  held := inv.held_goto away .idle
  rtracks := inv.rtracks.leave_woken woken (update_leave Place.waitsRead rfl)
  wtracks := inv.wtracks.congr (update_same Place.waitsWrite writing.symm)
  sound := by simp [State.rlockReturn, woken, inv.sound]

omit away

lemma rlockSync_woken (free : s.mutex = none) (at_ : s.place t = .rlockSync) :
    t ∈ s.wokenReaders := by
  have outside := inv.places t
  rw [at_] at outside
  exact inv.rtracks.ready (by simp [State.handReaders, free]) (by rw [at_]; rfl) outside

lemma rlockUnqueue_inv (taken : s.mutex = some (t, .rlockUnqueue)) :
    Inv (rlockUnqueue s t) := by
  have home := inv.home taken
  have quiet := inv.section_ok taken
  have tracks := inv.rtracks_at taken
  have wtracks := (inv.wtracks_at taken).congr
    (update_same Place.waitsWrite (show Place.waitsWrite .idle = _ by rw [home]; rfl))
  unfold rlockUnqueue unqueue
  split
  next missing =>
    have outside : t ∉ s.rq := by simpa using missing
    have woken := tracks.ready rfl (by rw [home]; rfl) outside
    exact { inv with
      places := places_update inv.places trivial (fun _ _ => id) (fun _ _ => id) fun _ _ _ => Iff.rfl
      held := quiet
      rtracks := tracks.leave_woken woken (update_leave Place.waitsRead rfl)
      wtracks := wtracks
      sound := by simp [State.leave, State.rlockReturn, woken, inv.sound] }
  next rq found =>
    obtain ⟨queued, rfl⟩ := Option.ite_some_none_eq_some.mp found
    exact { inv with
      bit := fun some => inv.bit (some.imp_left fun left empty => left (by
        simp [State.leave, State.goto, empty]))
      places := places_update inv.places trivial (fun _ _ => mem_of_mem_erase) (fun _ _ => id)
        fun _ _ _ => Iff.rfl
      held := quiet
      rtracks := tracks.leave_queue queued (update_leave Place.waitsRead rfl)
      wtracks := wtracks }

omit inv in
lemma mem_erase_other {l : List ThreadId} (u : ThreadId) (other : u ≠ t) (member : u ∈ l) :
    u ∈ l.erase t := (mem_erase_of_ne other).mpr member

lemma sysRwlockRunlock_inv (away : ∀ sec, s.mutex ≠ some (t, sec))
    (at_ : s.place t = .idle) (holds : t ∈ s.readers) : Inv (sysRwlockRunlock s t) := by
  unfold sysRwlockRunlock
  split
  next ready =>
    exact inv.goto away at_ ⟨ready.1, ready.2, holds⟩ rfl rfl
  next => exact inv.goto away at_ holds rfl rfl

lemma runlockCas_inv (away : ∀ sec, s.mutex ≠ some (t, sec)) {val : Int}
    (at_ : s.place t = .runlockCas val) : Inv (runlockCas s t val) := by
  have here := inv.places t
  rw [at_] at here
  obtain ⟨negative, clear, holds⟩ := here
  unfold runlockCas
  split
  next same =>
    subst same
    have even := waitBit_eq_false.mp clear
    have after : waitBit (s.owner + 2) = false := by
      rw [waitBit_eq_false]
      omega
    exact inv.lockfree away at_ (inv.word.drop_read holds (by omega)) clear after trivial
      rfl rfl mem_erase_other fun _ _ => Iff.rfl
  next => exact inv.goto away at_ holds rfl rfl

lemma runlockOp_inv (taken : s.mutex = some (t, .runlockOp)) :
    Inv (runlockOp s t) := by
  have quiet := inv.section_ok taken
  have holds := inv.places t
  rw [inv.home taken] at holds
  have negative := (inv.word.reader_neg holds).1
  have step : waitBit (s.owner + 2) = waitBit s.owner := by simp [waitBit]
  unfold runlockOp
  split
  next more =>
    refine inv.finish taken (inv.word.drop_read holds more)
      (fun queued => step.trans (inv.bit queued)) (fun _ set => quiet negative (step ▸ set))
      mem_erase_other (fun _ _ => Iff.rfl) rfl rfl rfl rfl
  next last =>
    have one : s.owner = -1 := by omega
    rw [if_neg (by omega)]
    exact inv.proceed taken inv.word inv.bit ⟨one, quiet negative (by simp [one, waitBit])⟩
      rfl rfl rfl

lemma runlockSchedule_inv (taken : s.mutex = some (t, .runlockSchedule)) :
    Inv (runlockSchedule protocol prio s t) := by
  obtain ⟨one, waiters⟩ := inv.section_ok taken
  unfold runlockSchedule
  split
  next cpu wq chosen => exact inv.pick_writer taken (schedule_perm chosen) one rfl rfl rfl
  next none => exact absurd (schedule_eq_none.mp none) waiters

lemma runlockGrant_inv (taken : s.mutex = some (t, .runlockGrant cpu)) :
    Inv (runlockGrant s t cpu) := by
  have one := inv.section_ok taken
  have holds := inv.places t
  rw [inv.home taken] at holds
  obtain ⟨noReaders, noWriters⟩ := inv.word.last_reader holds one
  refine inv.finish_grant taken noReaders (by rw [noWriters]) (fun u other member => ?_)
    (by simp [noWriters]) rfl rfl rfl rfl
  simpa [noReaders] using mem_erase_other u other member

include away

lemma sysRwlockWlock_inv
    (at_ : s.place t = .idle) : Inv (sysRwlockWlock s t) := by
  unfold sysRwlockWlock
  split
  next zero =>
    have free := (inv.word.free zero).2
    exact inv.goto away at_ (by simp [Place.Ok, free]) rfl rfl
  split
  next => exact inv
  next other =>
    refine inv.goto away at_ (fun holds => other ?_) rfl rfl
    have word := (inv.word.writer_eq holds).2.2
    simp only [writerWord] at word
    omega

lemma take_write_inv
    {p : Place} (at_ : s.place t = p) (reading : p.waitsRead = false) (writing : p.waitsWrite = false)
    (zero : s.owner = 0) : Inv ((s.takeWrite t).goto t .idle) := by
  have after : waitBit (writerWord t) = false := by
    rw [waitBit_eq_false, writerWord]
    omega
  refine inv.lockfree away at_ (inv.word.take_write t zero) (by simp [zero, waitBit]) after trivial
    reading.symm writing.symm (fun _ _ => id) fun u other => ?_
  simp [other]

lemma wlockCas_inv
    (at_ : s.place t = .wlockCas) : Inv (wlockCas s t) := by
  have here := inv.places t
  rw [at_] at here
  unfold wlockCas
  split
  next zero => exact take_write_inv inv away at_ rfl rfl zero
  next => exact inv.goto away at_ here rfl rfl

lemma trywlockCas_inv
    (at_ : s.place t = .trywlockCas) : Inv (trywlockCas s t) := by
  unfold trywlockCas
  split
  next zero => exact take_write_inv inv away at_ rfl rfl zero
  next => exact inv.goto away at_ trivial rfl rfl

omit away in
lemma wlockOp_inv (taken : s.mutex = some (t, .wlockOp)) : Inv (wlockOp s t) := by
  have quiet := inv.section_ok taken
  have free := inv.places t
  rw [inv.home taken] at free
  unfold wlockOp
  split
  next zero =>
    have empty : ¬ (s.rq ≠ [] ∨ s.wq ≠ []) := fun queued =>
      absurd (inv.bit queued) (by simp [zero, waitBit])
    refine inv.finish taken (inv.word.take_write t zero) (fun queued => absurd queued empty)
      (fun negative => absurd negative (by have pos := writerWord_pos t; omega))
      (fun _ _ => id) (fun u other => by simp [other]) rfl rfl rfl rfl
  next held =>
    refine inv.proceed taken (inv.word.set_wait_bit held) (fun _ => waitBit_setWaitBit s.owner)
      ⟨waitBit_setWaitBit s.owner, fun own => ?_, fun readers negative _ => ?_⟩ rfl rfl rfl
    · -- The word names this thread, but it holds no write lock.
      rcases inv.word with ⟨_, count⟩ | ⟨u, one, _, word⟩
      · have pos := t.pos
        omega
      refine free ?_
      simp only [writerWord] at word
      rw [one, ThreadId.ext_id (t := t) (u := u) (by omega)]
      exact List.mem_singleton.mpr rfl
    · have set := inv.bit (.inl readers)
      rw [setWaitBit_neg] at negative
      exact quiet negative set

omit away in
lemma wlockEmplace_inv {old : Int}
    (taken : s.mutex = some (t, .wlockEmplace old)) : Inv (wlockEmplace s t old) := by
  have home := inv.home taken
  obtain ⟨set, other, _⟩ := inv.section_ok taken
  unfold wlockEmplace
  rw [if_neg other]
  exact { inv with
    bit := fun _ => set
    places := places_update inv.places trivial (fun _ _ => id) (fun _ _ => id) fun _ _ _ => Iff.rfl
    held := fun _ _ => List.cons_ne_nil t s.wq
    rtracks := (inv.rtracks_at taken).congr (update_same Place.waitsRead (by rw [home]; rfl))
    wtracks := (inv.wtracks_at taken).park (by simp [home, Section.home, Place.waitsWrite])
      (update_park Place.waitsWrite rfl) }

lemma wlockReturn_inv
    (woken : t ∈ s.wokenWriters) (reading : (s.place t).waitsRead = false) :
    Inv (s.wlockReturn t) where
  __ := inv
  places := places_update inv.places trivial (fun _ _ => id) (fun _ _ => id) fun _ _ _ => Iff.rfl
  held := inv.held_goto away .idle
  rtracks := inv.rtracks.congr (update_same Place.waitsRead reading.symm)
  wtracks := inv.wtracks.leave_woken woken (update_leave Place.waitsWrite rfl)
  sound := by simp [State.wlockReturn, woken, inv.sound]

omit away

lemma wlockUnqueue_inv (taken : s.mutex = some (t, .wlockUnqueue)) :
    Inv (wlockUnqueue s t) := by
  have home := inv.home taken
  have quiet := inv.section_ok taken
  have tracks := inv.wtracks_at taken
  unfold wlockUnqueue unqueue
  split
  next missing =>
    have outside : t ∉ s.wq := by simpa using missing
    have woken := tracks.ready rfl (by rw [home]; rfl) outside
    exact { inv with
      places := places_update inv.places trivial (fun _ _ => id) (fun _ _ => id) fun _ _ _ => Iff.rfl
      held := quiet
      rtracks := (inv.rtracks_at taken).congr (update_same Place.waitsRead (by rw [home]; rfl))
      wtracks := tracks.leave_woken woken (update_leave Place.waitsWrite rfl)
      sound := by simp [State.leave, State.wlockReturn, woken, inv.sound] }
  next wq found =>
    obtain ⟨queued, rfl⟩ := Option.ite_some_none_eq_some.mp found
    have set := inv.bit (.inr (List.ne_nil_of_mem queued))
    exact { inv with
      bit := fun _ => set
      places := places_update inv.places trivial (fun _ _ => id) (fun _ _ => id) fun _ _ _ => Iff.rfl
      held := ⟨by simp [State.within, State.goto, Section.home], set⟩
      rtracks := (inv.rtracks_at taken).congr (update_same Place.waitsRead (by rw [home]; rfl))
      wtracks := tracks.leave_queue queued (update_leave Place.waitsWrite rfl) }

lemma wlockLast_inv (taken : s.mutex = some (t, .wlockLast)) :
    Inv (wlockLast s t) := by
  have set := inv.section_ok taken
  unfold wlockLast
  split
  next readers =>
    exact inv.proceed taken inv.word inv.bit ⟨set, readers.2.2, readers.2.1⟩ rfl rfl rfl
  next others =>
    split
    next none => exact inv.proceed taken inv.word inv.bit ⟨none.2, none.1⟩ rfl rfl rfl
    next some =>
      refine inv.finish taken inv.word inv.bit (fun negative _ empty => ?_)
        (fun _ _ => id) (fun _ _ => Iff.rfl) rfl rfl rfl rfl
      exact others ⟨fun noReader => some ⟨noReader, empty⟩, empty, negative⟩

variable {cpus : List ThreadId}

lemma wlockDrain_inv (taken : s.mutex = some (t, .wlockDrain cpus)) :
    Inv (wlockDrain prio s t cpus) := by
  obtain ⟨set, negative, noWriter⟩ := inv.section_ok taken
  unfold wlockDrain
  split
  next chosen =>
    exact inv.pick_reader taken (schedule_perm chosen) ⟨set, negative, noWriter⟩ rfl rfl rfl
  next none =>
    exact inv.proceed taken inv.word inv.bit
      ⟨set, negative, noWriter, schedule_eq_none.mp none⟩ rfl rfl rfl

lemma wlockAdd_inv (taken : s.mutex = some (t, .wlockAdd cpus)) : Inv (wlockAdd s t cpus) := by
  obtain ⟨_, negative, noWriter, noReader⟩ := inv.section_ok taken
  exact inv.finish_readers taken (inv.word.add_readers cpus negative) noReader noWriter
    (waitBit_clearWaitBit _) (fun _ _ => Iff.rfl) rfl rfl rfl rfl

lemma wlockClear_inv (taken : s.mutex = some (t, .wlockClear)) :
    Inv (wlockClear s t) := by
  obtain ⟨noWriter, noReader⟩ := inv.section_ok taken
  exact inv.finish taken inv.word.clear_wait_bit (by simp [noReader, noWriter])
    (fun _ set => absurd set (by simp [waitBit_clearWaitBit])) (fun _ _ => id) (fun _ _ => Iff.rfl)
    rfl rfl rfl rfl

section

variable (at_ : s.place t = .idle)

include away at_

lemma sysRwlockTrywlock_inv : Inv (sysRwlockTrywlock s t) := by
  unfold sysRwlockTrywlock
  split
  next => exact inv.goto away at_ trivial rfl rfl
  next => exact inv

lemma sysRwlockWunlock_inv (holds : t ∈ s.writers) : Inv (sysRwlockWunlock s t) := by
  unfold sysRwlockWunlock
  split
  next own => exact inv.goto away at_ ⟨own, holds⟩ rfl rfl
  split
  next => exact inv.goto away at_ holds rfl rfl
  next => exact inv

end

omit inv in
lemma mem_erase_iff_other {l : List ThreadId} (u : ThreadId) (other : u ≠ t) :
    u ∈ l.erase t ↔ u ∈ l := List.mem_erase_of_ne other

lemma wunlockCas_inv (away : ∀ sec, s.mutex ≠ some (t, sec)) {val : Int}
    (at_ : s.place t = .wunlockCas val) : Inv (wunlockCas s t val) := by
  have here := inv.places t
  rw [at_] at here
  obtain ⟨own, holds⟩ := here
  unfold wunlockCas
  split
  next same =>
    have clear : waitBit s.owner = false := by
      rw [waitBit_eq_false, same, own, writerWord]
      omega
    exact inv.lockfree away at_ (inv.word.drop_write holds) clear rfl trivial
      rfl rfl (fun _ _ => id) mem_erase_iff_other
  next =>
    split
    next => exact inv.goto away at_ holds rfl rfl
    next => exact inv.goto away at_ trivial rfl rfl

lemma wunlockSchedule_inv (taken : s.mutex = some (t, .wunlockSchedule)) :
    Inv (wunlockSchedule protocol prio s t) := by
  unfold wunlockSchedule
  split
  next chosen => exact inv.pick_writer taken (schedule_perm chosen) trivial rfl rfl rfl
  next none => exact inv.proceed taken inv.word inv.bit (schedule_eq_none.mp none) rfl rfl rfl

lemma wunlockGrant_inv (taken : s.mutex = some (t, .wunlockGrant cpu)) :
    Inv (wunlockGrant s t cpu) := by
  have holds := inv.places t
  rw [inv.home taken] at holds
  obtain ⟨one, noReaders, _⟩ := inv.word.writer_eq holds
  exact inv.finish_grant taken noReaders (by simp [one]) (by simp [noReaders])
    (fun u other => by simp [one, other]) rfl rfl rfl rfl

lemma wunlockReaders_inv (taken : s.mutex = some (t, .wunlockReaders)) :
    Inv (wunlockReaders s t) := by
  have noWriter := inv.section_ok taken
  unfold wunlockReaders
  split
  next => exact inv.proceed taken inv.word inv.bit noWriter rfl rfl rfl
  next none => exact inv.proceed taken inv.word inv.bit ⟨noWriter, not_not.mp none⟩ rfl rfl rfl

lemma wunlockDrain_inv (taken : s.mutex = some (t, .wunlockDrain cpus)) :
    Inv (wunlockDrain prio s t cpus) := by
  have noWriter := inv.section_ok taken
  unfold wunlockDrain
  split
  next chosen => exact inv.pick_reader taken (schedule_perm chosen) noWriter rfl rfl rfl
  next none =>
    exact inv.proceed taken inv.word inv.bit ⟨noWriter, schedule_eq_none.mp none⟩ rfl rfl rfl

lemma wunlockRelease_inv (taken : s.mutex = some (t, .wunlockRelease cpus)) :
    Inv (wunlockRelease s t cpus) := by
  obtain ⟨noWriter, noReader⟩ := inv.section_ok taken
  have holds := inv.places t
  rw [inv.home taken] at holds
  exact inv.finish_readers taken (inv.word.writer_to_readers holds cpus) noReader noWriter
    (by rw [waitBit_eq_false]; omega) mem_erase_iff_other rfl rfl rfl rfl

lemma wunlockFree_inv (taken : s.mutex = some (t, .wunlockFree)) :
    Inv (wunlockFree s t) := by
  obtain ⟨noWriter, noReader⟩ := inv.section_ok taken
  have holds := inv.places t
  rw [inv.home taken] at holds
  exact inv.finish taken (inv.word.drop_write holds) (by simp [noReader, noWriter])
    (by simp [Quiet]) (fun _ _ => id) mem_erase_iff_other rfl rfl rfl rfl

end EmuCore.Lv2.Rwlock
