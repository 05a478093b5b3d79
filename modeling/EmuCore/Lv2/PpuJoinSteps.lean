import EmuCore.Lv2.PpuJoinInvariant

namespace EmuCore.Lv2.PpuJoin

open Function Option

variable {P : Type}

variable {t : P} {th : Thread P} {ids : Nat -> Option P}

lemma Standing.congr {calls : Nat -> Call P} {th' : Thread P} (standing : Standing ids calls t th)
    (id : th'.id = th.id) (status : th'.joiner = th.joiner) (phase : th'.phase = th.phase)
    (count : th'.withdrawals = th.withdrawals) (born : th'.bornDetached = th.bornDetached) :
    Standing ids calls t th' := by
  cases standing with
  | joinable status' phase' kept listed born' free =>
    exact .joinable (status.trans status') (phase.trans phase') (count.trans kept) (id ▸ listed)
      (born.trans born') free
  | detached status' phase' kept listed owner =>
    exact .detached (status.trans status') (phase.trans phase') (count.trans kept) (id ▸ listed) (born ▸ owner)
  | zombie status' phase' kept listed born' free =>
    exact .zombie (status.trans status') (phase.trans phase') (count.trans kept) (id ▸ listed)
      (born.trans born') free
  | joined status' phase' kept listed owner =>
    exact .joined (status ▸ status') (phase.trans phase') (count.trans kept) (id ▸ listed) (id ▸ owner)
  | gone status' phase' removed owner =>
    exact .gone (status.trans status') (phase ▸ phase') (count.trans removed) (born ▸ owner)
  | reaped status' phase' kept listed born' owner =>
    exact .reaped (status.trans status') (phase ▸ phase') (count.trans kept) (id ▸ listed) (born.trans born') owner

lemma Standing.advance {calls : Nat -> Call P} (standing : Standing ids calls t th) (left : th.phase ≠ .running)
    (other : th.joiner ≠ PpuJoin.zombie) {phase : Phase} (releases : Nat) (ahead : phase ≠ .running) :
    Standing ids calls t { th with phase := phase, releases := releases } := by
  cases standing with
  | joinable status running | detached status running | joined status running => exact absurd running left
  | zombie status => exact absurd status other
  | gone status _ removed owner => exact .gone status ahead removed owner
  | reaped status _ kept listed born owner => exact .reaped status ahead kept listed born owner

variable {s : State P} {id : Nat}

lemma unlisted_other (listed : s.ids id = some t) (i : Nat) (u : P) (other : u ≠ t) (here : s.ids i = some u) :
    update s.ids id none i = some u := by
  rw [update_of_ne, here]
  rintro rfl
  exact other (some.inj (here.symm.trans listed))

lemma unlisted_fewer (i : Nat) (u : P) (here : update ids id none i = some u) : ids i = some u := by
  rw [update_apply] at here
  split at here
  · cases here
  · exact here

variable [DecidableEq P]

lemma withdraw_setThread (th : Thread P) (listed : s.ids id = some t) :
    withdraw (s.setThread t th) id =
      { s with
        threads := update s.threads t (some th.withdrawn)
        ids := update s.ids id none } := by
  have here : (s.setThread t th).ids id = some t := listed
  rw [withdraw, here]
  simp [State.setThread]

lemma setThread_self (known : s.threads t = some th) :
    s.setThread t th = s := by
  rw [State.setThread, ← known, update_eq_self]

omit [DecidableEq P] in
lemma takes_deliver (t : P) (vptr : Bool) (vret : Nat) :
    (Call.returned (some t) (deliver vptr vret)).takes = some t := by
  cases vptr <;> rfl

omit [DecidableEq P] in
lemma sound_deliver {threads : P -> Option (Thread P)} {vret : Nat} (ended : Ended threads t vret) (vptr : Bool) :
    (Call.returned (some t) (deliver vptr vret)).Sound threads := by
  cases vptr with
  | true => exact ⟨t, rfl, ended⟩
  | false => exact ⟨t, vret, rfl, ended⟩

lemma setCall_eq (known : s.threads t = some th) (c : Nat) (call : Call P) :
    s.setCall c call =
      ⟨update s.threads t (some th), s.ids, s.old, update s.calls c call, s.exits⟩ := by
  rw [State.setCall, ← known, update_eq_self]

omit [DecidableEq P] in
lemma isFinished_iff :
    isFinished s t = true ↔ ∃ th, s.threads t = some th ∧ th.phase = .finished := by
  rw [isFinished]
  cases s.threads t with
  | none | some th => simp

variable (sound : Sound s)

include sound

lemma Sound.thread (known : s.threads t = some th) (th' : Thread P) (later : Later th th')
    (own : Standing s.ids s.calls t th') (releases : th'.releases = th'.phase.releases)
    (turn : th'.phase ≠ .running -> th'.turn < s.exits) (old : th'.oldPpu = th.oldPpu ∧ th'.turn = th.turn) :
    Sound (s.setThread t th') :=
  sound.change known th' later (fun _ _ here => here) (fun _ _ _ here => here) (fun _ _ _ _ => rfl) own releases
    sound.once (fun _ => .inl rfl) le_rfl turn (fun _ here => .inl here)
    fun _ cleans => .inl ⟨old.1 ▸ cleans, old.2⟩

variable {next : State P}

lemma sound_compute {value : Nat} : compute s t value = some next -> Sound next := by
  fun_cases compute s t value with
  | case2 th known running =>
    rintro ⟨⟩
    refine sound.thread known _ ⟨rfl, fun left => absurd running left, fun done => done, fun gone => gone⟩
      ((sound.standing t th known).congr rfl rfl rfl rfl rfl) (sound.releases t th known) ?_ ⟨rfl, rfl⟩
    exact fun left => absurd running left
  | _ => rintro ⟨⟩

lemma sound_leave : leave s t = some next -> Sound next := by
  fun_cases leave s t with
  | case2 th known ready =>
    rintro ⟨⟩
    have left : th.phase ≠ .running := by simp [ready.1]
    refine sound.thread known _ ⟨rfl, fun _ => ⟨by simp, rfl, rfl⟩, ?_, fun gone => gone⟩
      ((sound.standing t th known).advance left ready.2 _ (by simp)) ?_ ?_ ⟨rfl, rfl⟩
    · exact fun done => absurd (ready.1.symm.trans done) (by simp)
    · have none := sound.releases t th known
      rw [ready.1] at none
      simp [none, Phase.releases]
    · exact fun _ => sound.turn t th known left
  | _ => rintro ⟨⟩

lemma sound_finish : finish s t = some next -> Sound next := by
  fun_cases finish s t with
  | case2 th known ready =>
    rintro ⟨⟩
    have left : th.phase ≠ .running := by simp [ready.1]
    have standing := sound.standing t th known
    have other : th.joiner ≠ zombie := by
      intro waits
      cases standing with
      | zombie status phase => exact absurd (ready.1.symm.trans phase) (by simp)
      | joined status => exact absurd (waits ▸ status) (by decide)
      | _ status => exact absurd (waits.symm.trans status) (by decide)
    refine sound.thread known _ ⟨rfl, fun _ => ⟨by simp, rfl, rfl⟩, fun _ => rfl, fun gone => gone⟩
      (standing.advance left other th.releases (by simp)) ?_ ?_ ⟨rfl, rfl⟩
    · have one := sound.releases t th known
      rw [ready.1] at one
      simp [one, Phase.releases]
    · exact fun _ => sound.turn t th known left
  | _ => rintro ⟨⟩

lemma sound_create {arg : Nat} {isDetached : Bool}
    (move : create s t id isDetached arg = some next) : Sound next := by
  obtain ⟨⟨unknown, unlisted, large⟩, rfl⟩ := ite_some_none_eq_some.mp move
  have free : Free s.calls t := by
    intro c taken
    have created := (sound.calls c).created taken
    rw [unknown] at created
    cases created
  have other : ∀ {u th}, s.threads u = some th -> u ≠ t := by
    rintro u th known rfl
    cases unknown.symm.trans known
  have grows (th : Thread P) : Grows s.threads (update s.threads t (some th)) :=
    fun u before known => ⟨before, (update_of_ne (other known) ..).trans known, .refl before⟩
  constructor
  case listed =>
    intro i u here
    rcases update_cases here with ⟨rfl, rfl⟩ | ⟨-, here⟩
    · exact ⟨_, update_self .., rfl⟩
    · exact id_grows (grows _) (sound.listed i u here)
  case large =>
    intro u th here
    rcases update_cases here with ⟨rfl, rfl⟩ | ⟨-, here⟩
    · exact large
    · exact sound.large u th here
  case standing =>
    intro u th here
    rcases update_cases here with ⟨rfl, rfl⟩ | ⟨-, here⟩
    · cases isDetached with
      | true => exact .detached rfl rfl rfl (update_self ..) (.inl ⟨rfl, free⟩)
      | false => exact .joinable rfl rfl rfl (update_self ..) rfl free
    · refine (sound.standing u th here).frame (fun _ _ => rfl) fun listed => ?_
      have apart : th.id ≠ id := by
        rintro rfl
        cases unlisted.symm.trans listed
      exact (update_of_ne apart ..).trans listed
  case releases =>
    intro u th here
    rcases update_cases here with ⟨rfl, rfl⟩ | ⟨-, here⟩
    · rfl
    · exact sound.releases u th here
  case once => exact sound.once
  case calls => exact fun c => (sound.calls c).grows (grows _)
  case turn =>
    intro u th here left
    rcases update_cases here with ⟨rfl, rfl⟩ | ⟨-, here⟩
    · exact absurd rfl left
    · exact sound.turn u th here left
  case old => exact fun o here => (sound.old o here).grows (grows _) le_rfl
  case chain =>
    intro u th o here cleans
    rcases update_cases here with ⟨rfl, rfl⟩ | ⟨-, here⟩
    · cases cleans
    · exact (sound.chain u th o here cleans).grows (grows _) le_rfl

lemma sound_exit : exit s t = some next -> Sound next := by
  fun_cases exit s t with
  | case3 th known running unowned =>
    rintro ⟨⟩
    rw [ne_eq, not_not] at running
    refine sound.change known { th with joiner := zombie, phase := .waiting, turn := s.exits, oldPpu := none }
      ⟨rfl, fun left => absurd running left, ?_, ?_⟩ (fun _ _ here => here) (fun _ _ _ here => here)
      (fun _ _ _ _ => rfl) ?_ ((sound.releases t th known).trans (by rw [running]; rfl)) sound.once
      (fun _ => .inl rfl) (Nat.le_succ _) (fun _ => Nat.lt_succ_self _) (fun _ here => .inl here)
      (fun _ cleans => by cases cleans)
    · exact fun done => absurd (running.symm.trans done) (by simp)
    · exact fun gone => absurd (unowned.symm.trans gone) (by decide)
    cases sound.standing t th known with
    | joinable _ _ kept listed born free => exact .zombie rfl rfl kept listed born free
    | joined status => exact absurd (unowned ▸ status) (by decide)
    | _ status => exact absurd (unowned.symm.trans status) (by decide)
  | case4 th known running owned =>
    rw [ne_eq, not_not] at running
    have place : s.ids th.id = some t ∧ th.withdrawals = 0 ∧ (th.bornDetached = true ∧ Free s.calls t ∨
        ∃ c, (s.calls c).takes = some t ∧ (s.calls c).settled = true) := by
      cases sound.standing t th known with
      | joinable status => exact absurd status owned
      | detached _ _ kept listed owner =>
        refine ⟨listed, kept, owner.imp_right fun ⟨c, here⟩ => ⟨c, ?_⟩⟩
        rw [here]
        exact ⟨rfl, rfl⟩
      | joined _ _ kept listed owner =>
        obtain ⟨c, vptr, here⟩ := owner
        refine ⟨listed, kept, .inr ⟨c, ?_⟩⟩
        rw [here]
        exact ⟨rfl, rfl⟩
      | zombie _ waits => exact absurd (running.symm.trans waits) (by simp)
      | gone _ left | reaped _ left => exact absurd running left
    obtain ⟨listed, kept, owner⟩ := place
    rw [withdraw_setThread _ listed]
    rintro ⟨⟩
    have later : Later th (Thread.withdrawn
        { th with joiner := exited, phase := .waiting, turn := s.exits, oldPpu := s.old }) :=
      ⟨rfl, fun left => absurd running left, fun done => absurd (running.symm.trans done) (by simp), fun _ => rfl⟩
    refine sound.change known _ later unlisted_fewer (unlisted_other listed) (fun _ _ _ _ => rfl) ?_
      ((sound.releases t th known).trans (by rw [running]; rfl)) sound.once (fun _ => .inl rfl) (Nat.le_succ _)
      (fun _ => Nat.lt_succ_self _) (fun o here => .inr ?_) (fun o cleans => .inr ?_)
    · exact .gone rfl (by simp [Thread.withdrawn]) (congrArg (· + 1) kept) owner
    · obtain rfl : t = o := some.inj (listed.symm.trans here)
      exact ⟨_, update_self .., rfl, by simp [Thread.withdrawn], Nat.lt_succ_self _⟩
    · exact (sound.old o cleans).grows (.update known later) le_rfl
  | _ => rintro ⟨⟩

variable {c : Nat}

lemma Sound.call (known : s.threads t = some th) (th' : Thread P) (later : Later th th')
    (kept : th'.phase = th.phase ∧ th'.releases = th.releases) (old : th'.oldPpu = th.oldPpu ∧ th'.turn = th.turn)
    (fewer : ∀ id u, ids id = some u -> s.ids id = some u)
    (others : ∀ id u, u ≠ t -> s.ids id = some u -> ids id = some u) (call : Call P)
    (before : (s.calls c).takes = some t ∨ (s.calls c).takes = none ∧ Free s.calls t) (after : call.takes = some t)
    (answer : call.Sound (update s.threads t (some th')))
    (own : Standing ids (update s.calls c call) t th') :
    Sound ⟨update s.threads t (some th'), ids, s.old, update s.calls c call, s.exits⟩ := by
  refine sound.change known th' later fewer others (fun d u other takes => ?_) own ?_ ?_ (fun d => ?_) le_rfl ?_
    (fun _ here => .inl here) fun o cleans => .inl ⟨old.1 ▸ cleans, old.2⟩
  · rw [update_apply] at takes ⊢
    split
    next here =>
      rw [here, if_pos rfl, after] at takes
      rcases takes with first | second
      · rcases before with own | ⟨none, -⟩
        · exact absurd (some.inj (own.symm.trans first)).symm other
        · cases none.symm.trans first
      · exact absurd (some.inj second).symm other
    next => rfl
  · rw [kept.1, kept.2]
    exact sound.releases t th known
  · refine sound.once.update fun u takes => ?_
    obtain rfl : t = u := some.inj (after.symm.trans takes)
    exact before.imp_right And.right
  · rw [update_apply]
    split
    · exact .inr answer
    · exact .inl rfl
  · intro left
    rw [old.2]
    exact sound.turn t th known (kept.1 ▸ left)

omit [DecidableEq P] in
lemma Sound.status (known : s.threads t = some th) :
    (th.joiner = joinable -> th.phase = .running ∧ th.withdrawals = 0 ∧ Free s.calls t) ∧
      (th.joiner = zombie -> th.phase = .waiting ∧ th.withdrawals = 0 ∧ th.bornDetached = false ∧
        Free s.calls t) := by
  refine ⟨fun here => ?_, fun here => ?_⟩
  · cases sound.standing t th known with
    | joinable _ running kept _ _ free => exact ⟨running, kept, free⟩
    | joined status => exact absurd (here ▸ status) (by decide)
    | _ status => exact absurd (here.symm.trans status) (by decide)
  · cases sound.standing t th known with
    | zombie _ waits kept _ born free => exact ⟨waits, kept, born, free⟩
    | joined status => exact absurd (here ▸ status) (by decide)
    | _ status => exact absurd (here.symm.trans status) (by decide)

omit [DecidableEq P] in
lemma Sound.named (listed : s.ids id = some t) (known : s.threads t = some th) : th.id = id := by
  obtain ⟨other, known', same⟩ := sound.listed id t listed
  rwa [some.inj (known.symm.trans known')]

lemma sound_join {threadId : Nat} {caller : P} {vptr : Bool} :
    join s c caller threadId vptr = some next -> Sound next := by
  fun_cases join s c caller threadId vptr with
  | case1 me _ idle | case2 me _ idle | case6 me _ idle | case7 me _ idle =>
    rintro ⟨⟩
    exact sound.refuse idle _ _
  | case4 me knownMe idle other t listed th known unowned =>
    rintro ⟨⟩
    obtain rfl := sound.named listed known
    obtain ⟨running, kept, free⟩ := (sound.status known).1 unowned
    refine sound.call known { th with joiner := me.id }
      ⟨rfl, fun left => absurd running left, fun done => done, ?_⟩ ⟨rfl, rfl⟩ ⟨rfl, rfl⟩
      (fun _ _ here => here) (fun _ _ _ here => here) (.waiting t th.id false vptr)
      (.inr ⟨congrArg Call.takes idle, free⟩) rfl ⟨_, update_self .., rfl⟩ ?_
    · exact fun gone => absurd (unowned.symm.trans gone) (by decide)
    · exact .joined (sound.large caller me knownMe) running kept listed ⟨c, vptr, update_self ..⟩
  | case5 me knownMe idle other t listed th known _ waits =>
    rintro ⟨⟩
    obtain rfl := sound.named listed known
    obtain ⟨phase, kept, born, free⟩ := (sound.status known).2 waits
    have left : th.phase ≠ .running := by simp [phase]
    refine sound.call known { th with joiner := exited }
      ⟨rfl, fun left => ⟨left, rfl, rfl⟩, fun done => done, fun _ => rfl⟩ ⟨rfl, rfl⟩ ⟨rfl, rfl⟩
      (fun _ _ here => here) (fun _ _ _ here => here) (.waiting t th.id true vptr)
      (.inr ⟨congrArg Call.takes idle, free⟩) rfl ⟨_, update_self .., rfl⟩ ?_
    refine .reaped rfl left kept listed born ⟨c, ?_⟩
    rw [update_self]
    exact ⟨rfl, rfl⟩
  | _ => rintro ⟨⟩

omit [DecidableEq P] in
lemma Sound.ended (known : s.threads t = some th) (finished : th.phase = .finished)
    (taken : (s.calls c).takes = some t) :
    th.joiner = exited ∧ ((s.calls c).settled = true -> th.withdrawals = 1) ∧
      ((s.calls c).settled = false ->
        th.withdrawals = 0 ∧ s.ids th.id = some t ∧ th.bornDetached = false) := by
  cases sound.standing t th known with
  | gone status _ removed owner =>
    refine ⟨status, fun _ => removed, fun pending => ?_⟩
    rcases owner with ⟨-, free⟩ | ⟨d, taken', settled⟩
    · exact absurd taken (free c)
    · rw [sound.once d c t taken' taken, pending] at settled
      cases settled
  | reaped status _ kept listed born owner =>
    refine ⟨status, fun settled => ?_, fun _ => ⟨kept, listed, born⟩⟩
    obtain ⟨d, taken', pending⟩ := owner
    rw [sound.once d c t taken' taken, settled] at pending
    cases pending
  | _ _ phase => exact absurd (finished.symm.trans phase) (by simp)

lemma Sound.hold (known : s.threads t = some th) (finished : th.phase = .finished)
    (taken : (s.calls c).takes = some t) (call : Call P) (after : call.takes = some t)
    (settled : call.settled = (s.calls c).settled) (answer : call.Sound s.threads) : Sound (s.setCall c call) := by
  have left : th.phase ≠ .running := by simp [finished]
  obtain ⟨status, removed, pending⟩ := sound.ended known finished taken
  have same : update s.threads t (some th) = s.threads := by
    rw [← known, update_eq_self]
  rw [setCall_eq known]
  refine sound.call known th (.refl th) ⟨rfl, rfl⟩ ⟨rfl, rfl⟩ (fun _ _ here => here) (fun _ _ _ here => here) call
    (.inl taken) after ((congrArg (Call.Sound · call) same).mpr answer) ?_
  have own : (update s.calls c call c).takes = some t ∧
      (update s.calls c call c).settled = (s.calls c).settled := by
    rw [update_self]
    exact ⟨after, settled⟩
  cases kind : (s.calls c).settled with
  | true => exact .gone status left (removed kind) (.inr ⟨c, own.1, own.2.trans kind⟩)
  | false =>
    obtain ⟨kept, listed, born⟩ := pending kind
    exact .reaped status left kept listed born ⟨c, own.1, own.2.trans kind⟩

lemma sound_joinResume : joinResume s c = some next -> Sound next := by
  fun_cases joinResume s c with
  | case3 t threadId eagain vptr here th known finished again =>
    rw [ne_eq, not_not] at finished
    exact absurd (sound.ended known finished (congrArg Call.takes here)).1 again
  | case4 t threadId vptr th known finished _ here =>
    rintro ⟨⟩
    rw [ne_eq, not_not] at finished
    have call := sound.calls c
    rw [here] at call
    refine sound.hold known finished (congrArg Call.takes here) _ rfl ?_ ⟨⟨th, known, finished, rfl⟩, call⟩
    rw [here]
    rfl
  | case5 t threadId eagain vptr here th known finished _ pending =>
    rintro ⟨⟩
    rw [ne_eq, not_not] at finished
    obtain rfl := Bool.eq_false_iff.mpr pending
    refine sound.hold known finished (congrArg Call.takes here) _ (takes_deliver t vptr _) ?_
      (sound_deliver ⟨th, known, finished, rfl⟩ vptr)
    rw [here]
    rfl
  | _ => rintro ⟨⟩

lemma sound_detachFinish : detachFinish s c = some next -> Sound next := by
  fun_cases detachFinish s c with
  | case1 t here done =>
    rintro ⟨⟩
    obtain ⟨th, known, finished⟩ := isFinished_iff.mp done
    refine sound.hold known finished (congrArg Call.takes here) _ rfl ?_ ⟨t, rfl, by simp [known]⟩
    rw [here]
    rfl
  | _ => rintro ⟨⟩

lemma sound_joinRemove (move : joinRemove s c = some next) :
    Sound next := by
  rw [joinRemove] at move
  split at move
  next t threadId vret vptr here =>
    have taken : (s.calls c).takes = some t := congrArg Call.takes here
    have pending : (s.calls c).settled = false := congrArg Call.settled here
    have call := sound.calls c
    rw [here] at call
    obtain ⟨⟨th, known, finished, register⟩, th', known', rfl⟩ := call
    obtain rfl : th = th' := some.inj (known.symm.trans known')
    have left : th.phase ≠ .running := by simp [finished]
    obtain ⟨status, -, mine⟩ := sound.ended known finished taken
    obtain ⟨kept, listed, -⟩ := mine pending
    have removed := withdraw_setThread th listed
    rw [setThread_self known] at removed
    rw [if_pos listed, removed] at move
    cases move
    refine sound.call known th.withdrawn (.withdrawn th) ⟨rfl, rfl⟩ ⟨rfl, rfl⟩ unlisted_fewer
      (unlisted_other listed) _ (.inl taken) (takes_deliver t vptr vret)
      (sound_deliver ⟨th.withdrawn, update_self .., finished, register⟩ vptr) ?_
    refine .gone status left (congrArg (· + 1) kept) (.inr ⟨c, ?_⟩)
    rw [update_self]
    exact ⟨takes_deliver t vptr vret, rfl⟩
  · cases move

lemma sound_detach {threadId : Nat} : detach s c threadId = some next -> Sound next := by
  fun_cases detach s c threadId with
  | case1 idle | case4 idle | case6 idle | case7 idle =>
    rintro ⟨⟩
    exact sound.refuse idle _ _
  | case3 idle t listed th known unowned =>
    rintro ⟨⟩
    obtain rfl := sound.named listed known
    obtain ⟨running, kept, free⟩ := (sound.status known).1 unowned
    refine sound.call known { th with joiner := detached }
      ⟨rfl, fun left => absurd running left, fun done => done, ?_⟩ ⟨rfl, rfl⟩ ⟨rfl, rfl⟩
      (fun _ _ here => here) (fun _ _ _ here => here) (.returned (some t) .ok)
      (.inr ⟨congrArg Call.takes idle, free⟩) rfl ⟨t, rfl, by simp⟩ ?_
    · exact fun gone => absurd (unowned.symm.trans gone) (by decide)
    · exact .detached rfl running kept listed (.inr ⟨c, update_self ..⟩)
  | case5 idle t listed th known _ _ waits =>
    obtain rfl := sound.named listed known
    obtain ⟨phase, kept, -, free⟩ := (sound.status known).2 waits
    have left : th.phase ≠ .running := by simp [phase]
    rw [withdraw_setThread _ listed]
    rintro ⟨⟩
    refine sound.call known (Thread.withdrawn { th with joiner := exited })
      ⟨rfl, fun left => ⟨left, rfl, rfl⟩, fun done => done, fun _ => rfl⟩ ⟨rfl, rfl⟩ ⟨rfl, rfl⟩
      unlisted_fewer (unlisted_other listed) (.finishing t) (.inr ⟨congrArg Call.takes idle, free⟩) rfl ?_ ?_
    · simp [Call.Sound]
    · refine .gone rfl left (congrArg (· + 1) kept) (.inr ⟨c, ?_⟩)
      rw [update_self]
      exact ⟨rfl, rfl⟩
  | _ => rintro ⟨⟩

omit sound

omit [DecidableEq P] in
lemma sound_start : Sound (start : State P) := by
  constructor
  case listed => exact fun _ _ here => by cases here
  case large => exact fun _ _ here => by cases here
  case standing => exact fun _ _ here => by cases here
  case releases => exact fun _ _ here => by cases here
  case once => exact fun _ _ _ here => by cases here
  case calls => exact fun _ => trivial
  case turn => exact fun _ _ here => by cases here
  case old => exact fun _ here => by cases here
  case chain => exact fun _ _ _ here => by cases here

lemma sound_perform (s : State P) (action : Action P) (next : State P) (sound : Sound s)
    (move : perform s action = some next) : Sound next := by
  cases action with
  | create t id isDetached arg => exact sound_create sound move
  | compute t value => exact sound_compute sound move
  | exit t => exact sound_exit sound move
  | leave t => exact sound_leave sound move
  | finish t => exact sound_finish sound move
  | join c caller threadId vptr => exact sound_join sound move
  | joinResume c => exact sound_joinResume sound move
  | joinRemove c => exact sound_joinRemove sound move
  | detach c threadId => exact sound_detach sound move
  | detachFinish c => exact sound_detachFinish sound move

lemma sound_reachable (reach : (system P).Reachable s) : Sound s := by
  refine reach.invariant (fun s begins => ?_) sound_perform
  rw [show s = start from begins]
  exact sound_start

end EmuCore.Lv2.PpuJoin
