import EmuCore.Lv2.MutexInvariant

namespace EmuCore.Lv2.Mutex

open Parking LinkedList List Function

variable {cfg : Config} {s s' : State} {t : ThreadId}

variable {holders : List ThreadId}

namespace Inv

lemma fresh (inv : Inv cfg s) (calm : (s.place t).waits = false) :
    t ∉ s.queue ∧ t ∉ s.hand ∧ t ∉ s.woken := by
  have outside : t ∉ s.queue ++ s.hand ++ s.woken := fun member => by
    simp [(inv.tracks.mem t).mp member] at calm
  simpa [not_or] using outside

def Kept (s : State) (t : ThreadId) (holders : List ThreadId) : Prop :=
  ∀ u ∈ s.holders, u ∈ holders ∨ (u = t ∧ (s.place t).waits = false)

lemma kept_refl : Kept s t s.holders := fun _ member => .inl member

lemma Kept.other (kept : Kept s t holders) (u : ThreadId) (other : u ≠ t) (member : u ∈ s.holders) : u ∈ holders :=
  (kept u member).resolve_right fun same => other same.1

lemma Kept.waiting (kept : Kept s t holders) (inv : Inv cfg s) (u : ThreadId)
    (waits : u ∈ s.queue ++ s.hand ++ s.woken) (member : u ∈ s.holders) :
    u ∈ holders := by
  refine (kept u member).resolve_right fun same => ?_
  have waiting := (inv.tracks.mem u).mp waits
  rw [same.1] at waiting
  simp [same.2] at waiting

lemma Kept.owners (kept : Kept s t holders) (inv : Inv cfg s) (u : ThreadId) (woken : u ∈ s.woken) : u ∈ holders :=
  kept.waiting inv u (mem_append_right _ woken) (inv.owners u woken)

section

variable (inv : Inv cfg s) (away : ∀ sec, s.mutex ≠ some (t, sec)) {p : Place}

include inv away

lemma held_frame {value : Option ThreadId}
    {queue : List ThreadId} (outside : t ∉ s.queue ∨ value = s.next t) (grown : s.queue <:+ queue)
    (left : ∀ u, u ≠ t -> u ∈ queue -> u ∈ s.queue) (kept : Kept s t holders) (u : ThreadId) (sec : Section)
    (taken : s.mutex = some (u, sec)) :
    (update s.place t p u).waits = sec.waits ∧
      sec.Ok cfg (update s.next t value) queue holders u := by
  have other : u ≠ t := by
    rintro rfl
    exact away sec taken
  have given : ∀ res ∈ sec.hand, res ∈ s.holders -> res ∈ holders := fun res held =>
    kept.waiting inv res (mem_append_left _ (mem_append_right _ (by
      simpa [State.hand, taken] using held)))
  obtain ⟨waits, ok⟩ := inv.held u sec taken
  refine ⟨by simpa [other] using waits, ?_⟩
  rcases outside with outside | rfl
  · refine ok.frame (fun first list suffix chain => ?_) (fun v queued => ?_) grown
      (left u other) (kept.other u other) given
    · exact chain.update fun member => outside (suffix.subset member)
    · have apart : v ≠ t := fun same => outside (same ▸ queued)
      exact update_of_ne apart ..
  · rw [update_eq_self]
    exact ok.frame (fun _ _ _ => id) (fun _ _ => rfl) grown (left u other) (kept.other u other) given

lemma goto
    (here : p.Ok t s.next s.queue s.holders) (waits : p.waits = (s.place t).waits) :
    Inv cfg (s.goto t p) where
  __ := inv
  places := places_update inv.places here (fun _ _ _ => rfl) (fun _ _ => id) fun _ _ => id
  held := by
    have held := inv.held_frame away (p := p) (.inr rfl) (suffix_refl _) (fun _ _ => id) Inv.kept_refl
    rw [update_eq_self] at held
    exact held
  tracks := inv.tracks.congr (update_same Place.waits waits)

end

lemma counts (inv : Inv cfg s) (lockCount : Nat) : Inv cfg { s with lockCount := lockCount } :=
  { inv with }

lemma acquire (inv : Inv cfg s) (away : ∀ sec, s.mutex ≠ some (t, sec)) {it : Control}
    (value : Option ThreadId) (calm : (s.place t).waits = false) (same : s.control = it)
    (zero : it.owner = 0) :
    Inv cfg ((State.setNext { s with
        control := { it with owner := t.id }
        holders := t :: s.holders } t value).goto t .idle) := by
  subst same
  have noHolder := inv.own.none zero
  have outside := (inv.fresh calm).1
  have kept : Kept s t (t :: s.holders) := fun _ member => .inl (mem_cons_of_mem t member)
  exact { inv with
    own := by
      rw [noHolder]
      exact Owned.one t
    free := fun _ => inv.free zero
    chain := inv.chain.update outside
    places := places_update inv.places trivial (fun u other _ => update_of_ne other ..)
      (fun _ _ => id) kept.other
    held := inv.held_frame away (.inl outside) (suffix_refl _) (fun _ _ => id) kept
    owners := kept.owners inv
    tracks := inv.tracks.congr (update_same Place.waits calm.symm) }

end Inv

variable (inv : Inv cfg s)

include inv

variable (away : ∀ sec, s.mutex ≠ some (t, sec))

include away

lemma tryLock_inv
    {cas : Control -> Place} {busy : Place} (calm : (s.place t).waits = false)
    (casOk : ∀ it, it.owner = 0 -> (cas it).Ok t s.next s.queue s.holders)
    (casCalm : ∀ it, (cas it).waits = false) (busyOk : busy.Ok t s.next s.queue s.holders)
    (busyCalm : busy.waits = false) : Inv cfg (tryLock cfg s t cas busy) := by
  unfold tryLock
  split
  next zero => exact inv.goto away (casOk _ zero) (by rw [casCalm, calm])
  split
  next =>
    split
    next =>
      split
      next => exact inv.goto away trivial calm.symm
      next => exact (inv.counts (s.lockCount + 1)).goto away (p := .idle) trivial calm.symm
    next => exact inv.goto away trivial calm.symm
  next => exact inv.goto away busyOk (by rw [busyCalm, calm])

lemma tryLockCas_inv {it : Control}
    {busy : Place} (calm : (s.place t).waits = false) (zero : it.owner = 0)
    (busyOk : busy.Ok t s.next s.queue s.holders) (busyCalm : busy.waits = false) :
    Inv cfg (tryLockCas s t it busy) := by
  unfold tryLockCas
  split
  next same =>
    have taken := inv.acquire away (s.next t) calm same zero
    simpa [State.setNext] using taken
  next => exact inv.goto away busyOk (by rw [busyCalm, calm])

lemma lockBusy_inv
    (at_ : s.place t = .lockBusy) (retry : Bool) : Inv cfg (lockBusy s t retry) := by
  unfold lockBusy
  split
  next => exact inv.goto away trivial (by rw [at_]; rfl)
  next => exact inv.goto away trivial (by rw [at_]; rfl)

lemma tryOwnRun_inv {old : Control}
    (at_ : s.place t = .ownRun old) : Inv cfg (tryOwnRun s t old) := by
  have calm : (s.place t).waits = false := by rw [at_]; rfl
  have outside := (inv.fresh calm).1
  unfold tryOwnRun
  split
  next =>
    exact { inv with
      chain := inv.chain.update outside
      places := places_update inv.places (fun _ => update_self ..)
        (fun u other _ => update_of_ne other ..) (fun _ _ => id) fun _ _ => id
      held := inv.held_frame away (.inl outside) (suffix_refl _) (fun _ _ => id) Inv.kept_refl
      tracks := inv.tracks.congr (update_same Place.waits calm.symm) }
  next zero => exact inv.goto away (fun owned => absurd owned zero) calm.symm

lemma tryOwnCas_inv {old : Control}
    (at_ : s.place t = .ownCas old) : Inv cfg (tryOwnCas s t old) := by
  have calm : (s.place t).waits = false := by rw [at_]; rfl
  have link := inv.places t
  rw [at_] at link
  unfold tryOwnCas
  split
  next same =>
    split
    next owned =>
      have chain : Chain s.next (some t) (t :: s.queue) :=
        ⟨rfl, by rw [link owned, ← same]; exact inv.chain⟩
      have pushed : ∀ u, u ≠ t -> u ∈ t :: s.queue -> u ∈ s.queue := fun u other member =>
        (mem_cons.mp member).resolve_left other
      exact { inv with
        own := by
          have own := inv.own
          rw [same] at own
          exact own
        free := fun zero => absurd zero owned
        chain := chain
        places := places_update inv.places trivial (fun _ _ _ => rfl) pushed fun _ _ => id
        held := by
          have held := inv.held_frame away (p := .lockWait) (.inr rfl)
            (suffix_cons t s.queue) pushed Inv.kept_refl
          rw [update_eq_self] at held
          exact held
        tracks := inv.tracks.park (by simp [calm]) (update_park Place.waits rfl) }
    next zero => exact inv.acquire away none calm same (not_not.mp zero)
  next => exact inv.goto away trivial calm.symm

lemma lockProbe_inv
    (at_ : s.place t = .lockWait) : Inv cfg (lockProbe s t) := by
  unfold lockProbe
  split
  next empty =>
    have none : s.queue = [] := by
      have head := inv.chain.head
      rw [empty] at head
      exact head?_eq_none_iff.mp head.symm
    exact inv.goto away (by simp [Place.Ok, none]) (by rw [at_]; rfl)
  next => exact inv.goto away trivial (by rw [at_]; rfl)

lemma tryUnlock_inv
    (at_ : s.place t = .idle) : Inv cfg (tryUnlock s t) := by
  unfold tryUnlock
  split
  next => exact inv
  next own =>
    have named := not_not.mp own
    have holds := inv.own.self named
    split
    next => exact inv.counts _
    split
    next empty => exact inv.goto away ⟨named, empty, holds⟩ (by rw [at_]; rfl)
    next => exact inv.goto away holds (by rw [at_]; rfl)

lemma tryUnlockCas_inv {it : Control}
    (at_ : s.place t = .unlockCas it) : Inv cfg (tryUnlockCas s t it) := by
  have calm : (s.place t).waits = false := by rw [at_]; rfl
  have here := inv.places t
  rw [at_] at here
  obtain ⟨named, empty, holds⟩ := here
  have one := (inv.own.holder holds).2
  have kept : Inv.Kept s t (s.holders.erase t) := fun u member => by
    by_cases same : u = t
    · exact .inr ⟨same, calm⟩
    · exact .inl ((mem_erase_of_ne same).mpr member)
  unfold tryUnlockCas
  split
  next same =>
    have none : s.queue = [] := by
      have head := inv.chain.head
      rw [same, empty] at head
      exact head?_eq_none_iff.mp head.symm
    exact { inv with
      own := .inl ⟨rfl, by simp [State.goto, one]⟩
      free := fun _ => none
      chain := by
        have chain := inv.chain
        rw [same] at chain
        exact chain
      places := places_update inv.places trivial (fun _ _ _ => rfl) (fun _ _ => id) kept.other
      held := by
        have held := inv.held_frame away (p := .idle) (.inr rfl) (suffix_refl _) (fun _ _ => id) kept
        rw [update_eq_self] at held
        exact held
      tracks := inv.tracks.congr (update_same Place.waits calm.symm)
      owners := kept.owners inv }
  next => exact inv.goto away holds calm.symm

lemma lockReturn_inv
    (woken : t ∈ s.woken) : Inv cfg (s.lockReturn t) where
  __ := inv
  places := places_update inv.places trivial (fun _ _ _ => rfl) (fun _ _ => id) fun _ _ => id
  held := by
    have held := inv.held_frame away (p := .idle) (.inr rfl) (suffix_refl _) (fun _ _ => id) Inv.kept_refl
    rw [update_eq_self] at held
    exact held
  tracks := inv.tracks.leave_woken woken (update_leave Place.waits rfl)
  owners := fun u member => inv.owners u (mem_of_mem_erase member)
  sound := by simp [State.lockReturn, woken, inv.sound]

omit away

lemma lockSync_woken (free : s.mutex = none) (at_ : s.place t = .lockSync) :
    t ∈ s.woken := by
  have outside := inv.places t
  rw [at_] at outside
  exact inv.tracks.ready (by simp [State.hand, free]) (by rw [at_]; rfl) outside

variable {res : ThreadId} {prio : ThreadId -> Prio} {seen : List ThreadId} {old : Control}

namespace Inv

variable {sec : Section}

section

variable (taken : s.mutex = some (t, sec))

include taken

lemma tracks_at :
    Tracks (fun u => (s.place u).waits = true) s.queue sec.hand s.woken := by
  simpa [State.hand, taken] using inv.tracks

lemma leave (empty : sec.hand = []) :
    Inv cfg s.leave where
  __ := inv
  held := fun _ _ free => by cases free
  tracks := by
    have tracks := inv.tracks_at taken
    rw [empty] at tracks
    exact tracks

lemma proceed {next : Section}
    (ok : next.Ok cfg s.next s.queue s.holders t) (waits : next.waits = sec.waits)
    (hand : next.hand = sec.hand) : Inv cfg (s.within t next) where
  __ := inv
  held := by
    rintro _ _ ⟨⟩
    exact ⟨by rw [waits]; exact (inv.held t sec taken).1, ok⟩
  tracks := by
    have tracks := inv.tracks_at taken
    rw [← hand] at tracks
    exact tracks

end

lemma seen_now : Seen s.next s.queue s.control s.queue :=
  ⟨inv.chain, suffix_refl _⟩

lemma linked_eq (before : Seen s.next s.queue old seen) : s.linked old = some seen := by
  have few := length_lt_of_nodup inv.tracks.queue_nodup
  have short := before.2.length_le
  exact before.1.walk_eq (by omega)

lemma seen_all (before : Seen s.next s.queue old seen) (same : s.control = old) :
    s.queue = seen := by
  subst same
  exact inv.chain.unique before.1

end Inv

omit inv in
lemma head_rest (first : seen.head? = some t) : ∃ rest, seen = t :: rest :=
  ⟨seen.tail, (cons_head?_tail first).symm⟩

lemma reownRun_inv (taken : s.mutex = some (t, .reownRun old seen)) :
    Inv cfg (reownRun cfg prio s t old seen) := by
  obtain ⟨calm, holds, before⟩ := inv.held t _ taken
  unfold reownRun
  rw [inv.linked_eq before]
  cases seen with
  | nil => exact inv.proceed taken ⟨holds, before.1⟩ rfl rfl
  | cons it rest =>
    have choice := scheduleFound_prescribed cfg.protocol prio it rest
    dsimp only
    generalize scheduleFound cfg.protocol prio it rest = found at choice ⊢
    -- The last node of the list points nowhere, so both ways to unlink agree.
    have after : (if cfg.protocol = .fifo then none else s.next found) = s.next found := by
      split
      next fifo =>
        rw [Prescribed, if_pos fifo] at choice
        exact (before.1.last choice).symm
      next => rfl
    rw [after]
    split
    next head =>
      subst head
      exact inv.proceed taken ⟨holds, before, rfl, rfl, choice⟩ rfl rfl
    next other =>
      have inside : found ∈ rest := (mem_cons.mp choice.mem).resolve_left other
      obtain ⟨front, whole⟩ := before.2
      have queued : found ∈ s.queue := before.2.subset choice.mem
      exact { inv with
        free := fun zero => by simp [State.within, inv.free zero]
        chain := by
          have chain := inv.chain
          have nodup := inv.tracks.queue_nodup
          rw [← whole] at chain nodup
          have unlinked := chain.unlink nodup inside
          rw [whole] at unlinked
          exact unlinked
        places := fun u => (inv.places u).frame
          (fun quiet => relink_of_notMem fun member =>
            (inv.fresh quiet).1 (before.2.subset member))
          mem_of_mem_erase id
        held := by
          rintro _ _ ⟨⟩
          exact ⟨calm, holds, choice⟩
        tracks := (inv.tracks_at taken).move (by
          change (s.queue ++ [] ++ s.woken).Perm (s.queue.erase found ++ [found] ++ s.woken)
          have moved := (perm_cons_erase queued).append_right s.woken
          simpa using moved.trans perm_middle.symm) }

lemma reload_inv {sec : Section} (taken : s.mutex = some (t, sec))
    (holds : t ∈ s.holders) (waits : sec.waits = false) (empty : sec.hand = []) :
    Inv cfg (s.within t (.reownRun s.control s.queue)) :=
  inv.proceed taken ⟨holds, inv.seen_now⟩ waits.symm empty.symm

lemma others_kept (holds : t ∈ s.holders) (holders : List ThreadId) (u : ThreadId)
    (other : u ≠ t) (member : u ∈ s.holders) : u ∈ holders := by
  rw [(inv.own.holder holds).2, mem_singleton] at member
  exact absurd member other

lemma not_woken {sec : Section} (taken : s.mutex = some (t, sec))
    (calm : sec.waits = false) (holds : t ∈ s.holders) (u : ThreadId) (woken : u ∈ s.woken) : False := by
  have one := (inv.own.holder holds).2
  have owner := inv.owners u woken
  rw [one, mem_singleton] at owner
  have waiting := (inv.tracks.mem u).mp (mem_append_right _ woken)
  rw [owner, (inv.held t sec taken).1, calm] at waiting
  cases waiting

lemma reownFree_inv (taken : s.mutex = some (t, .reownFree old seen)) :
    Inv cfg (reownFree s t old) := by
  obtain ⟨calm, holds, empty⟩ := inv.held t _ taken
  unfold reownFree
  split
  next same =>
    have none : s.queue = [] := by
      have head := inv.chain.head
      rw [same, empty] at head
      exact head?_eq_none_iff.mp head.symm
    have one := (inv.own.holder holds).2
    exact { inv with
      own := .inl ⟨rfl, by simp [State.leave, State.goto, one]⟩
      free := fun _ => none
      chain := by
        have chain := inv.chain
        rw [same] at chain
        exact chain
      places := places_update inv.places trivial (fun _ _ _ => rfl) (fun _ _ => id)
        (others_kept inv holds _)
      held := fun _ _ free => by cases free
      tracks := (inv.tracks_at taken).congr (update_same Place.waits calm.symm)
      owners := fun u woken => (not_woken inv taken rfl holds u woken).elim }
  next => exact reload_inv inv taken holds rfl rfl

lemma reownCas_inv {new : Control} (taken : s.mutex = some (t, .reownCas old new seen res prio)) :
    Inv cfg (reownCas s t old new seen res prio) := by
  obtain ⟨calm, holds, before, first, value, choice⟩ := inv.held t _ taken
  unfold reownCas
  split
  next same =>
    obtain ⟨rest, split⟩ := head_rest first
    have whole : s.queue = res :: rest := (inv.seen_all before same).trans split
    have one := (inv.own.holder holds).2
    have chain : Chain s.next (s.next res) rest := by
      have chain := inv.chain
      rw [whole] at chain
      exact chain.2
    exact {
      own := by
        rw [value, one, erase_cons_head]
        exact Owned.one res
      free := fun zero => by
        rw [value] at zero
        exact absurd zero res.pos.ne'
      chain := by
        rw [value, whole, erase_cons_head]
        exact chain
      places := places_update inv.places trivial (fun _ _ _ => rfl) (fun _ _ => mem_of_mem_erase)
        (others_kept inv holds _)
      held := by
        rintro _ _ ⟨⟩
        exact ⟨by simp [State.within, State.goto, Place.waits, Section.waits], mem_cons_self⟩
      owners := fun u woken => (not_woken inv taken rfl holds u woken).elim
      tracks := by
        have moved : Tracks _ (s.queue.erase res) [res] s.woken := (inv.tracks_at taken).move (by
          simpa [whole, Section.hand] using perm_middle.symm)
        exact moved.congr (update_same Place.waits calm.symm)
      grants := by
        intro g member
        rcases mem_cons.mp member with rfl | older
        · exact choice
        · exact inv.grants g older
      sound := inv.sound }
  next => exact reload_inv inv taken holds rfl rfl

lemma reownStore_inv (taken : s.mutex = some (t, .reownStore seen res prio)) :
    Inv cfg (reownStore s t seen res prio) := by
  obtain ⟨calm, holds, choice⟩ := inv.held t _ taken
  have one := (inv.own.holder holds).2
  exact { inv with
    own := by
      change Owned res.id (res :: s.holders.erase t)
      rw [one, erase_cons_head]
      exact Owned.one res
    free := fun zero => absurd zero res.pos.ne'
    places := places_update inv.places trivial (fun _ _ _ => rfl) (fun _ _ => id)
      (others_kept inv holds _)
    held := by
      rintro _ _ ⟨⟩
      exact ⟨by simp [reownStore, State.within, State.goto, Place.waits, Section.waits],
        mem_cons_self⟩
    tracks := (inv.tracks_at taken).congr (update_same Place.waits calm.symm)
    owners := fun u woken => (not_woken inv taken rfl holds u woken).elim
    grants := by
      intro g member
      rcases mem_cons.mp member with rfl | older
      · exact choice
      · exact inv.grants g older }

lemma reownDetach_inv (taken : s.mutex = some (t, .reownDetach res)) :
    Inv cfg (reownDetach s t res) := by
  obtain ⟨calm, owns⟩ := inv.held t _ taken
  have tracks := inv.tracks_at taken
  have waiting : (s.place res).waits = true := tracks.waits_hand (mem_singleton.mpr rfl)
  have outside : res ∉ s.queue := fun member =>
    disjoint_of_nodup_append (List.Nodup.of_append_left tracks.nodup) member
      (mem_singleton.mpr rfl)
  have links : ∀ u, u ≠ t -> (s.place u).waits = false ->
      update s.next res none u = s.next u := by
    intro u _ quiet
    have other : u ≠ res := fun same => by simp [same, waiting] at quiet
    exact update_of_ne other ..
  exact { inv with
    chain := inv.chain.update outside
    places := places_update inv.places trivial links (fun _ _ => id) fun _ _ => id
    held := fun _ _ free => by cases free
    tracks := by
      have moved : Tracks _ s.queue [] (res :: s.woken) := tracks.move (by simp [Section.hand])
      exact moved.congr (update_same Place.waits calm.symm)
    owners := by
      intro u member
      rcases mem_cons.mp member with rfl | older
      · exact owns
      · exact inv.owners u older }

lemma timeoutReturn_inv {sec : Section} (taken : s.mutex = some (t, sec))
    (waits : sec.waits = true) (empty : sec.hand = []) (outside : t ∉ s.queue) :
    Inv cfg ((s.lockReturn t).leave) := by
  have woken := (inv.tracks_at taken).ready empty (by rw [(inv.held t sec taken).1, waits]) outside
  exact lockReturn_inv (inv.leave taken empty) (fun _ free => by cases free) woken

lemma timeoutRun_inv (taken : s.mutex = some (t, .timeoutRun old seen)) :
    Inv cfg (timeoutRun s t old seen) := by
  obtain ⟨waits, before, own⟩ := inv.held t _ taken
  unfold timeoutRun
  rw [inv.linked_eq before]
  cases seen with
  | nil => exact timeoutReturn_inv inv taken rfl rfl fun member => by cases own member
  | cons it rest =>
    dsimp only
    split
    next head =>
      subst head
      exact inv.proceed taken ⟨before, rfl, rfl⟩ rfl rfl
    next other =>
      split
      next inside =>
        obtain ⟨front, whole⟩ := before.2
        have queued : t ∈ s.queue := before.2.subset (mem_cons_of_mem it inside)
        exact { inv with
          free := fun zero => by simp [State.within, State.goto, inv.free zero]
          chain := by
            have chain := inv.chain
            have nodup := inv.tracks.queue_nodup
            rw [← whole] at chain nodup
            have unlinked := chain.unlink nodup inside
            rw [whole] at unlinked
            exact unlinked
          places := places_update inv.places trivial
            (fun u _ quiet => relink_of_notMem fun member =>
              (inv.fresh quiet).1 (before.2.subset member))
            (fun _ _ => mem_of_mem_erase) fun _ _ => id
          held := by
            rintro _ _ ⟨⟩
            exact ⟨by simp [State.within, State.goto, Place.waits, Section.waits], trivial⟩
          tracks := (inv.tracks_at taken).leave_queue queued (update_leave Place.waits rfl) }
      next missing =>
        refine timeoutReturn_inv inv taken rfl rfl fun member => ?_
        exact missing ((mem_cons.mp (own member)).resolve_left fun same => other same.symm)

lemma timeoutCas_inv {new : Control} (taken : s.mutex = some (t, .timeoutCas old new seen)) :
    Inv cfg (timeoutCas s t old new) := by
  obtain ⟨waits, before, first, value⟩ := inv.held t _ taken
  unfold timeoutCas
  split
  next same =>
    obtain ⟨rest, split⟩ := head_rest first
    have whole : s.queue = t :: rest := (inv.seen_all before same).trans split
    have queued : t ∈ s.queue := whole ▸ mem_cons_self
    exact { inv with
      own := by
        rw [value, ← same]
        exact inv.own
      free := fun zero => by
        rw [value, ← same] at zero
        simp [inv.free zero] at queued
      chain := by
        have chain := inv.chain
        rw [whole] at chain
        rw [value, whole, erase_cons_head]
        exact chain.2
      places := places_update inv.places trivial (fun _ _ _ => rfl) (fun _ _ => mem_of_mem_erase)
        fun _ _ => id
      held := by
        rintro _ _ ⟨⟩
        exact ⟨by simp [State.within, State.goto, Place.waits, Section.waits], trivial⟩
      tracks := (inv.tracks_at taken).leave_queue queued (update_leave Place.waits rfl) }
  next => exact inv.proceed taken ⟨inv.seen_now, id⟩ rfl rfl

lemma timeoutDone_inv (taken : s.mutex = some (t, .timeoutDone)) :
    Inv cfg (timeoutDone s t) := by
  have calm : (s.place t).waits = false := (inv.held t _ taken).1
  exact { inv with
    chain := inv.chain.update (inv.fresh calm).1
    places := places_update inv.places trivial (fun u other _ => update_of_ne other ..)
      (fun _ _ => id) fun _ _ => id
    held := fun _ _ free => by cases free
    tracks := (inv.tracks_at taken).congr (update_same Place.waits calm.symm) }

end EmuCore.Lv2.Mutex
