import EmuCore.Lib.Parking
import EmuCore.Lv2.Rwlock

namespace EmuCore.Lv2.Rwlock

open List

/-- `owner` counts the read locks down by two from zero, or names the one writer. -/
def Word (owner : Int) (readers writers : List ThreadId) : Prop :=
  (writers = [] ∧ (owner = -2 * readers.length ∨
    (readers ≠ [] ∧ owner = -2 * readers.length + 1))) ∨
  ∃ t, writers = [t] ∧ readers = [] ∧ (owner = writerWord t ∨ owner = writerWord t + 1)

lemma waitBit_eq_true {val : Int} : waitBit val = true ↔ val % 2 = 1 := by
  simp [waitBit]

lemma waitBit_eq_false {val : Int} : waitBit val = false ↔ val % 2 = 0 := by
  simp only [waitBit, beq_eq_false_iff_ne, ne_eq]
  omega

lemma waitBit_setWaitBit (val : Int) : waitBit (setWaitBit val) = true := by
  unfold setWaitBit
  split
  next set => exact set
  next clear =>
    rw [waitBit_eq_true] at *
    omega

lemma waitBit_clearWaitBit (val : Int) : waitBit (clearWaitBit val) = false := by
  rw [waitBit_eq_false, clearWaitBit]
  omega

lemma setWaitBit_neg {val : Int} : setWaitBit val < 0 ↔ val < 0 := by
  unfold setWaitBit
  split
  · rfl
  next clear =>
    rw [waitBit_eq_true] at clear
    omega

variable {t : ThreadId}

lemma waitBit_grantWord {wq rq : WaitQueue} (some : rq ≠ [] ∨ wq ≠ []) :
    waitBit (grantWord t wq rq) = true := by
  rw [waitBit_eq_true, grantWord, if_pos some.symm, writerWord]
  omega

lemma writerWord_pos (t : ThreadId) : 0 < writerWord t := by
  have pos := t.pos
  simp only [writerWord]
  omega

namespace Word

variable {owner : Int} {readers writers : List ThreadId}

variable (word : Word owner readers writers)

include word

lemma reader_neg (member : t ∈ readers) :
    owner < 0 ∧ writers = [] := by
  have pos := length_pos_of_mem member
  rcases word with ⟨none, count⟩ | ⟨u, one, empty, count⟩
  · exact ⟨by omega, none⟩
  · simp [empty] at member

lemma writer_eq (member : t ∈ writers) :
    writers = [t] ∧ readers = [] ∧ (owner = writerWord t ∨ owner = writerWord t + 1) := by
  rcases word with ⟨none, count⟩ | ⟨u, one, empty, count⟩
  · simp [none] at member
  · have same : t = u := by simpa [one] using member
    exact ⟨same ▸ one, empty, same ▸ count⟩

lemma free (zero : owner = 0) :
    readers = [] ∧ writers = [] := by
  rcases word with ⟨none, count⟩ | ⟨u, one, empty, count⟩
  · refine ⟨eq_nil_of_length_eq_zero ?_, none⟩
    omega
  · have pos := writerWord_pos u
    omega

lemma nonpos (bound : owner ≤ 0) : writers = [] := by
  rcases word with ⟨none, count⟩ | ⟨u, one, empty, count⟩
  · exact none
  · have pos := writerWord_pos u
    omega

lemma take_read (t : ThreadId) (bound : owner ≤ 0)
    (clear : waitBit owner = false) : Word (owner - 2) (t :: readers) writers := by
  rw [waitBit_eq_false] at clear
  have none := word.nonpos bound
  rcases word with ⟨_, count⟩ | ⟨u, one, _, _⟩
  · refine .inl ⟨none, .inl ?_⟩
    simp only [length_cons]
    omega
  · simp [none] at one

lemma drop_read (member : t ∈ readers) (bound : owner < -1) :
    Word (owner + 2) (readers.erase t) writers := by
  have fewer := length_erase_of_mem member
  have pos := length_pos_of_mem member
  rcases word with ⟨none, count⟩ | ⟨u, _, empty, _⟩
  · refine .inl ⟨none, ?_⟩
    rcases count with even | ⟨_, odd⟩
    · left
      omega
    · right
      refine ⟨ne_nil_of_length_pos ?_, ?_⟩ <;> omega
  · simp [empty] at member

lemma take_write (t : ThreadId) (zero : owner = 0) :
    Word (writerWord t) readers (t :: writers) := by
  obtain ⟨noReaders, noWriters⟩ := word.free zero
  exact .inr ⟨t, by simp [noWriters], noReaders, .inl rfl⟩

lemma drop_write (member : t ∈ writers) :
    Word 0 readers (writers.erase t) := by
  obtain ⟨one, empty, _⟩ := word.writer_eq member
  exact .inl ⟨by simp [one], .inl (by simp [empty])⟩

lemma set_wait_bit (held : owner ≠ 0) :
    Word (setWaitBit owner) readers writers := by
  unfold setWaitBit
  split
  next => exact word
  next clear =>
    rw [waitBit_eq_true] at clear
    rcases word with ⟨none, count⟩ | ⟨u, one, empty, count⟩
    · refine .inl ⟨none, .inr ⟨ne_nil_of_length_pos ?_, ?_⟩⟩ <;> omega
    · refine .inr ⟨u, one, empty, .inr ?_⟩
      simp only [writerWord] at *
      omega

lemma clear_wait_bit :
    Word (clearWaitBit owner) readers writers := by
  unfold clearWaitBit
  rcases word with ⟨none, count⟩ | ⟨u, one, empty, count⟩
  · exact .inl ⟨none, .inl (by omega)⟩
  · refine .inr ⟨u, one, empty, .inl ?_⟩
    simp only [writerWord] at *
    omega

lemma add_readers (cpus : List ThreadId) (bound : owner < 0) :
    Word (clearWaitBit (owner - 2 * cpus.length)) (cpus ++ readers) writers := by
  have none := word.nonpos (by omega)
  rcases word with ⟨_, count⟩ | ⟨u, one, _, _⟩
  · refine .inl ⟨none, .inl ?_⟩
    simp only [clearWaitBit, length_append]
    omega
  · simp [none] at one

lemma writer_to_readers (member : t ∈ writers) (cpus : List ThreadId) :
    Word (-2 * cpus.length) (cpus ++ readers) (writers.erase t) := by
  obtain ⟨one, empty, _⟩ := word.writer_eq member
  exact .inl ⟨by simp [one], .inl (by simp [empty])⟩

omit word in
lemma grant (t : ThreadId) (wq rq : WaitQueue) : Word (grantWord t wq rq) [] [t] := by
  refine .inr ⟨t, rfl, rfl, ?_⟩
  unfold grantWord
  split
  · exact .inr rfl
  · exact .inl rfl

lemma last_reader (member : t ∈ readers) (last : owner = -1) :
    readers.erase t = [] ∧ writers = [] := by
  have fewer := length_erase_of_mem member
  refine ⟨eq_nil_of_length_eq_zero ?_, (word.reader_neg member).2⟩
  rcases word with ⟨none, count⟩ | ⟨u, _, empty, _⟩
  · omega
  · simp [empty] at member

end Word

open Parking

def Place.waitsRead : Place -> Bool
  | .rlockWait | .rlockSync | .rlockTimeout => true
  | _ => false

def Place.waitsWrite : Place -> Bool
  | .wlockWait | .wlockTimeout => true
  | _ => false

def Place.Ok (t : ThreadId) (rq : WaitQueue) (readers writers : List ThreadId) : Place -> Prop
  | .rlockCas val => val ≤ 0 ∧ waitBit val = false
  | .rlockSync => t ∉ rq
  | .runlockCas val => val < 0 ∧ waitBit val = false ∧ t ∈ readers
  | .runlockLock => t ∈ readers
  | .wlockCas | .wlockLock => t ∉ writers
  | .wunlockCas val => val = writerWord t ∧ t ∈ writers
  | .wunlockLock => t ∈ writers
  | _ => True

def Section.home : Section -> Place
  | .rlockOp | .rlockEmplace => .rlockLock
  | .rlockUnqueue => .rlockTimeout
  | .runlockOp | .runlockSchedule | .runlockGrant _ | .runlockFree => .runlockLock
  | .wlockOp | .wlockEmplace _ => .wlockLock
  | .wlockUnqueue => .wlockTimeout
  | .wlockLast | .wlockDrain _ | .wlockAdd _ | .wlockClear => .wlockLeave
  | .wunlockSchedule | .wunlockGrant _ | .wunlockReaders | .wunlockDrain _ | .wunlockRelease _
  | .wunlockFree => .wunlockLock

def Section.readers : Section -> List ThreadId
  | .wlockDrain cpus | .wlockAdd cpus | .wunlockDrain cpus | .wunlockRelease cpus => cpus
  | _ => []

def Section.writers : Section -> List ThreadId
  | .runlockGrant cpu | .wunlockGrant cpu => [cpu]
  | _ => []

-- A wait bit over read locks was left by a writer, and that writer still waits.
def Quiet (owner : Int) (wq : WaitQueue) : Prop := owner < 0 -> waitBit owner = true -> wq ≠ []

def Section.Ok (owner : Int) (rq wq : WaitQueue) (t : ThreadId) : Section -> Prop
  | .rlockOp | .rlockUnqueue | .runlockOp | .wlockOp | .wlockUnqueue => Quiet owner wq
  | .rlockEmplace => waitBit owner = true ∧ Quiet owner wq
  | .runlockSchedule => owner = -1 ∧ wq ≠ []
  | .runlockGrant _ => owner = -1
  | .runlockFree => False
  | .wlockEmplace old => waitBit owner = true ∧ old / 2 ≠ t.id ∧ (rq ≠ [] -> Quiet owner wq)
  | .wlockLast => waitBit owner = true
  | .wlockDrain _ => waitBit owner = true ∧ owner < 0 ∧ wq = []
  | .wlockAdd _ => waitBit owner = true ∧ owner < 0 ∧ wq = [] ∧ rq = []
  | .wunlockSchedule | .wunlockGrant _ => True
  | .wunlockReaders | .wunlockDrain _ => wq = []
  | .wlockClear | .wunlockRelease _ | .wunlockFree => wq = [] ∧ rq = []

namespace State

def handReaders (s : State) : List ThreadId := (s.mutex.map fun held => held.2.readers).getD []

def handWriters (s : State) : List ThreadId := (s.mutex.map fun held => held.2.writers).getD []

def HeldOk (s : State) : Prop :=
  match s.mutex with
  | none => Quiet s.owner s.wq
  | some (t, sec) => s.place t = sec.home ∧ sec.Ok s.owner s.rq s.wq t

end State

structure Inv (s : State) : Prop where
  word : Word s.owner s.readers s.writers
  bit : s.rq ≠ [] ∨ s.wq ≠ [] -> waitBit s.owner = true
  places : ∀ u, (s.place u).Ok u s.rq s.readers s.writers
  held : s.HeldOk
  rtracks : Tracks (fun u => (s.place u).waitsRead = true) s.rq s.handReaders s.wokenReaders
  wtracks : Tracks (fun u => (s.place u).waitsWrite = true) s.wq s.handWriters s.wokenWriters
  sound : s.failed = false

lemma start_inv : Inv start where
  word := .inl ⟨rfl, .inl rfl⟩
  bit := by simp [start]
  places := fun _ => trivial
  held := by simp [State.HeldOk, start, Quiet]
  rtracks := ⟨by simp [start, State.handReaders], by simp [start, State.handReaders, Place.waitsRead]⟩
  wtracks := ⟨by simp [start, State.handWriters], by simp [start, State.handWriters, Place.waitsWrite]⟩
  sound := rfl

variable {p : Place} {readers writers : List ThreadId}

lemma Place.Ok.frame {u : ThreadId} {rq rq' : WaitQueue} {readers' writers' : List ThreadId}
    (ok : p.Ok u rq readers writers) (queue : u ∈ rq' -> u ∈ rq) (reads : u ∈ readers -> u ∈ readers')
    (writes : p.waitsWrite = false -> (u ∈ writers' ↔ u ∈ writers)) :
    p.Ok u rq' readers' writers' := by
  cases p
  case rlockSync => exact fun member => ok (queue member)
  all_goals simp_all [Place.Ok, Place.waitsWrite]

lemma places_update {place : ThreadId -> Place} {t : ThreadId} {rq rq' : WaitQueue}
    {readers' writers' : List ThreadId} (ok : ∀ u, (place u).Ok u rq readers writers)
    (here : p.Ok t rq' readers' writers') (queue : ∀ u, u ≠ t -> u ∈ rq' -> u ∈ rq)
    (reads : ∀ u, u ≠ t -> u ∈ readers -> u ∈ readers')
    (writes : ∀ u, u ≠ t -> (place u).waitsWrite = false -> (u ∈ writers' ↔ u ∈ writers)) (u : ThreadId) :
    (Function.update place t p u).Ok u rq' readers' writers' := by
  by_cases same : u = t
  · subst same
    simpa using here
  · simpa [same] using (ok u).frame (queue u same) (reads u same) (writes u same)

variable {sec : Section}

lemma Section.Ok.lockfree {owner owner' : Int} {rq wq : WaitQueue} {t : ThreadId} (ok : sec.Ok owner rq wq t)
    (before : waitBit owner = false) (after : waitBit owner' = false) :
    sec.Ok owner' rq wq t := by
  cases sec <;> simp_all [Section.Ok, Quiet]
  all_goals exact absurd before (by decide)

lemma State.HeldOk.lockfree {s : State} {t : ThreadId} (held : s.HeldOk) (owner : Int) (p : Place)
    (away : ∀ sec, s.mutex ≠ some (t, sec)) (before : waitBit s.owner = false)
    (after : waitBit owner = false) {s' : State} (same : s'.mutex = s.mutex) (word : s'.owner = owner)
    (rq : s'.rq = s.rq) (wq : s'.wq = s.wq) (place : s'.place = Function.update s.place t p) :
    s'.HeldOk := by
  unfold State.HeldOk at *
  rw [same, word, rq, wq, place]
  cases taken : s.mutex with
  | none => simp [Quiet, after]
  | some pair =>
    obtain ⟨u, sec⟩ := pair
    rw [taken] at held
    have other : u ≠ t := by
      rintro rfl
      exact away sec taken
    exact ⟨by simpa [other] using held.1, held.2.lockfree before after⟩

namespace Inv

variable {s : State} {t : ThreadId}

variable (inv : Inv s)

include inv

variable (away : ∀ sec, s.mutex ≠ some (t, sec))

include away

lemma lockfree {owner : Int} {from_ : Place} (at_ : s.place t = from_)
    (word : Word owner readers writers) (before : waitBit s.owner = false) (after : waitBit owner = false)
    (here : p.Ok t s.rq readers writers) (reading : p.waitsRead = from_.waitsRead)
    (writing : p.waitsWrite = from_.waitsWrite) (reads : ∀ u, u ≠ t -> u ∈ s.readers -> u ∈ readers)
    (writes : ∀ u, u ≠ t -> (u ∈ writers ↔ u ∈ s.writers)) :
    Inv ({ s with owner := owner, readers := readers, writers := writers }.goto t p) where
  word := word
  bit := fun queued => absurd (inv.bit queued) (by simp [before])
  places := places_update inv.places here (fun _ _ => id) reads fun u other _ => writes u other
  held := inv.held.lockfree owner p away before after rfl rfl rfl rfl rfl
  rtracks := inv.rtracks.congr (update_same Place.waitsRead (at_ ▸ reading))
  wtracks := inv.wtracks.congr (update_same Place.waitsWrite (at_ ▸ writing))
  sound := inv.sound

lemma held_goto (p : Place) :
    (s.goto t p).HeldOk := by
  have held := inv.held
  unfold State.HeldOk at *
  simp only [State.goto]
  cases taken : s.mutex with
  | none => simpa [taken] using held
  | some pair =>
    obtain ⟨u, sec⟩ := pair
    rw [taken] at held
    have other : u ≠ t := by
      rintro rfl
      exact away sec taken
    exact ⟨by simpa [other] using held.1, held.2⟩

lemma goto {from_ : Place} (at_ : s.place t = from_) (here : p.Ok t s.rq s.readers s.writers)
    (reading : p.waitsRead = from_.waitsRead) (writing : p.waitsWrite = from_.waitsWrite) :
    Inv (s.goto t p) where
  __ := inv
  places := places_update inv.places here (fun _ _ => id) (fun _ _ => id) fun _ _ _ => Iff.rfl
  held := inv.held_goto away p
  rtracks := inv.rtracks.congr (update_same Place.waitsRead (at_ ▸ reading))
  wtracks := inv.wtracks.congr (update_same Place.waitsWrite (at_ ▸ writing))

omit away

lemma quiet (free : s.mutex = none) : Quiet s.owner s.wq := by
  simpa [State.HeldOk, free] using inv.held

lemma home (taken : s.mutex = some (t, sec)) :
    s.place t = sec.home := by
  have held := inv.held
  simp only [State.HeldOk, taken] at held
  exact held.1

lemma section_ok (taken : s.mutex = some (t, sec)) :
    sec.Ok s.owner s.rq s.wq t := by
  have held := inv.held
  simp only [State.HeldOk, taken] at held
  exact held.2

lemma enter (free : s.mutex = none) (home : s.place t = sec.home) (ok : sec.Ok s.owner s.rq s.wq t)
    (noReaders : sec.readers = []) (noWriters : sec.writers = []) :
    Inv { s with mutex := some (t, sec) } where
  __ := inv
  held := ⟨home, ok⟩
  rtracks := by simpa [State.handReaders, free, noReaders] using inv.rtracks
  wtracks := by simpa [State.handWriters, free, noWriters] using inv.wtracks

variable {owner : Int} {next : Section} (taken : s.mutex = some (t, sec))

include taken

lemma rtracks_at :
    Tracks (fun u => (s.place u).waitsRead = true) s.rq sec.readers s.wokenReaders := by
  simpa [State.handReaders, taken] using inv.rtracks

lemma wtracks_at :
    Tracks (fun u => (s.place u).waitsWrite = true) s.wq sec.writers s.wokenWriters := by
  simpa [State.handWriters, taken] using inv.wtracks

lemma proceed (word : Word owner s.readers s.writers)
    (bit : s.rq ≠ [] ∨ s.wq ≠ [] -> waitBit owner = true) (ok : next.Ok owner s.rq s.wq t)
    (home : next.home = sec.home) (readers : next.readers = sec.readers) (writers : next.writers = sec.writers) :
    Inv ({ s with owner := owner }.within t next) where
  __ := inv
  word := word
  bit := bit
  held := ⟨(inv.home taken).trans home.symm, ok⟩
  rtracks := by simpa [State.handReaders, State.within, readers] using inv.rtracks_at taken
  wtracks := by simpa [State.handWriters, State.within, writers] using inv.wtracks_at taken

lemma pick_reader {cpu : ThreadId} {rq : WaitQueue}
    (picked : s.rq.Perm (cpu :: rq)) (ok : next.Ok s.owner rq s.wq t) (home : next.home = sec.home)
    (readers : next.readers = cpu :: sec.readers) (writers : next.writers = sec.writers) :
    Inv ({ s with rq := rq }.within t next) where
  __ := inv
  bit := fun queued => inv.bit <| queued.imp_left fun some empty => by
    simp [empty] at picked
  places := fun u => (inv.places u).frame
    (fun member => picked.mem_iff.mpr (mem_cons_of_mem cpu member)) id fun _ => Iff.rfl
  held := ⟨(inv.home taken).trans home.symm, ok⟩
  rtracks := by
    have moved : (s.rq ++ sec.readers ++ s.wokenReaders).Perm
        (rq ++ cpu :: sec.readers ++ s.wokenReaders) :=
      ((picked.append_right sec.readers).trans perm_middle.symm).append_right _
    simpa [State.handReaders, State.within, readers] using (inv.rtracks_at taken).move moved
  wtracks := by simpa [State.handWriters, State.within, writers] using inv.wtracks_at taken

lemma pick_writer {cpu : ThreadId} {wq : WaitQueue}
    (picked : s.wq.Perm (cpu :: wq)) (ok : next.Ok s.owner s.rq wq t) (home : next.home = sec.home)
    (readers : next.readers = sec.readers) (writers : next.writers = cpu :: sec.writers) :
    Inv ({ s with wq := wq }.within t next) where
  __ := inv
  bit := fun queued => inv.bit <| queued.imp_right fun some empty => by
    simp [empty] at picked
  held := ⟨(inv.home taken).trans home.symm, ok⟩
  rtracks := by simpa [State.handReaders, State.within, readers] using inv.rtracks_at taken
  wtracks := by
    have moved : (s.wq ++ sec.writers ++ s.wokenWriters).Perm
        (wq ++ cpu :: sec.writers ++ s.wokenWriters) :=
      ((picked.append_right sec.writers).trans perm_middle.symm).append_right _
    simpa [State.handWriters, State.within, writers] using (inv.wtracks_at taken).move moved

lemma finish {readers : List ThreadId}
    (word : Word owner readers writers) (bit : s.rq ≠ [] ∨ s.wq ≠ [] -> waitBit owner = true)
    (quiet : Quiet owner s.wq) (reads : ∀ u, u ≠ t -> u ∈ s.readers -> u ∈ readers)
    (writes : ∀ u, u ≠ t -> (u ∈ writers ↔ u ∈ s.writers)) (noReaders : sec.readers = [])
    (noWriters : sec.writers = []) (reading : sec.home.waitsRead = false) (writing : sec.home.waitsWrite = false) :
    Inv (({ s with owner := owner, readers := readers, writers := writers }.goto t .idle).leave) where
  word := word
  bit := bit
  places := places_update inv.places trivial (fun _ _ => id) reads fun u other _ => writes u other
  held := quiet
  rtracks := (noReaders ▸ inv.rtracks_at taken).congr
    (update_same Place.waitsRead (by rw [inv.home taken, reading]; rfl))
  wtracks := (noWriters ▸ inv.wtracks_at taken).congr
    (update_same Place.waitsWrite (by rw [inv.home taken, writing]; rfl))
  sound := inv.sound

lemma finish_grant {cpu : ThreadId} {readers : List ThreadId}
    (noLocks : readers = []) (one : writers = [cpu]) (reads : ∀ u, u ≠ t -> u ∉ s.readers)
    (writes : ∀ u, u ≠ t -> u ∉ s.writers) (noReaders : sec.readers = []) (hand : sec.writers = [cpu])
    (reading : sec.home.waitsRead = false) (writing : sec.home.waitsWrite = false) :
    Inv (({ s with
        owner := grantWord cpu s.wq s.rq
        readers := readers
        writers := writers
        wokenWriters := cpu :: s.wokenWriters }.goto t .idle).leave) where
  word := by
    rw [noLocks, one]
    exact Word.grant cpu s.wq s.rq
  bit := waitBit_grantWord
  places := by
    have waiting := (inv.wtracks_at taken).waits_hand (hand ▸ mem_singleton.mpr rfl)
    refine places_update inv.places trivial (fun _ _ => id)
      (fun u other member => absurd member (reads u other)) fun u other idle => ?_
    have different : u ≠ cpu := by
      rintro rfl
      simp [waiting] at idle
    change u ∈ writers ↔ u ∈ s.writers
    simp [one, different, writes u other]
  held := fun negative => by
    have pos := writerWord_pos cpu
    simp only [State.leave, State.goto, grantWord] at negative
    split at negative <;> omega
  rtracks := (noReaders ▸ inv.rtracks_at taken).congr
    (update_same Place.waitsRead (by rw [inv.home taken, reading]; rfl))
  wtracks := by
    have tracks : Tracks _ s.wq [] (cpu :: s.wokenWriters) :=
      (hand ▸ inv.wtracks_at taken).move (by simp)
    exact tracks.congr (update_same Place.waitsWrite (by rw [inv.home taken, writing]; rfl))
  sound := inv.sound

lemma finish_readers {cpus : List ThreadId}
    (word : Word owner (cpus ++ s.readers) writers) (noReader : s.rq = []) (noWriter : s.wq = [])
    (clear : waitBit owner = false) (writes : ∀ u, u ≠ t -> (u ∈ writers ↔ u ∈ s.writers)) (hand : sec.readers = cpus)
    (noWriters : sec.writers = []) (reading : sec.home.waitsRead = false) (writing : sec.home.waitsWrite = false) :
    Inv (({ s with
        owner := owner
        readers := cpus ++ s.readers
        writers := writers
        wokenReaders := cpus ++ s.wokenReaders }.goto t .idle).leave) where
  word := word
  bit := fun queued => absurd queued (by simp [State.leave, State.goto, noReader, noWriter])
  places := places_update inv.places trivial (fun _ _ => id)
    (fun _ _ => mem_append_right cpus) fun u other _ => writes u other
  held := fun _ set => absurd set (by simp [State.leave, State.goto, clear])
  rtracks := by
    have tracks : Tracks _ s.rq [] (cpus ++ s.wokenReaders) :=
      (hand ▸ inv.rtracks_at taken).move (by simp)
    exact tracks.congr (update_same Place.waitsRead (by rw [inv.home taken, reading]; rfl))
  wtracks := (noWriters ▸ inv.wtracks_at taken).congr
    (update_same Place.waitsWrite (by rw [inv.home taken, writing]; rfl))
  sound := inv.sound

end Inv

end EmuCore.Lv2.Rwlock
