import Mathlib.Order.Nat
import EmuCore.Lv2.PpuJoin

namespace EmuCore.Lv2.PpuJoin

open Function Option

variable {P : Type}

def Result.isError : Result -> Bool
  | .error _ => true
  | _ => false

def Call.takes : Call P -> Option P
  | .idle => none
  | .waiting t _ _ _ => some t
  | .removing t _ _ _ => some t
  | .finishing t => some t
  | .returned found result => if result.isError then none else found

def Call.settled : Call P -> Bool
  | .waiting _ _ eagain _ => !eagain
  | .removing _ _ _ _ => false
  | _ => true

def Free (calls : Nat -> Call P) (t : P) : Prop := ∀ c, (calls c).takes ≠ some t

def Once (calls : Nat -> Call P) : Prop :=
  ∀ c d t, (calls c).takes = some t -> (calls d).takes = some t -> c = d

variable {calls : Nat -> Call P} {call : Call P}

lemma Once.update (once : Once calls) {c : Nat}
    (takes : ∀ t, call.takes = some t -> (calls c).takes = some t ∨ Free calls t) :
    Once (update calls c call) := by
  have old : ∀ d t, d ≠ c -> (calls d).takes = some t -> call.takes ≠ some t := by
    intro d t other taken same
    rcases takes t same with own | free
    · exact other (once d c t taken own)
    · exact free d taken
  intro d e t first second
  rw [update_apply] at first second
  split at first <;> split at second
  next here there => rw [here, there]
  next here there => exact absurd first (old e t there second)
  next here there => exact absurd second (old d t here first)
  next => exact once d e t first second

inductive Standing (ids : Nat -> Option P) (calls : Nat -> Call P) (t : P) (th : Thread P) : Prop
  | joinable (status : th.joiner = joinable) (phase : th.phase = .running) (kept : th.withdrawals = 0)
      (listed : ids th.id = some t) (born : th.bornDetached = false) (free : Free calls t)
  | detached (status : th.joiner = detached) (phase : th.phase = .running) (kept : th.withdrawals = 0)
      (listed : ids th.id = some t)
      (owner : th.bornDetached = true ∧ Free calls t ∨ ∃ c, calls c = .returned (some t) .ok)
  | zombie (status : th.joiner = zombie) (phase : th.phase = .waiting) (kept : th.withdrawals = 0)
      (listed : ids th.id = some t) (born : th.bornDetached = false) (free : Free calls t)
  | joined (status : idBase ≤ th.joiner) (phase : th.phase = .running) (kept : th.withdrawals = 0)
      (listed : ids th.id = some t)
      (owner : ∃ c vptr, calls c = .waiting t th.id false vptr)
  | gone (status : th.joiner = exited) (phase : th.phase ≠ .running) (removed : th.withdrawals = 1)
      (owner : th.bornDetached = true ∧ Free calls t ∨
        ∃ c, (calls c).takes = some t ∧ (calls c).settled = true)
  | reaped (status : th.joiner = exited) (phase : th.phase ≠ .running) (kept : th.withdrawals = 0)
      (listed : ids th.id = some t) (born : th.bornDetached = false)
      (owner : ∃ c, (calls c).takes = some t ∧ (calls c).settled = false)

variable {t : P}

lemma Standing.frame {ids ids' : Nat -> Option P} {calls' : Nat -> Call P} {th : Thread P}
    (same : ∀ c, (calls c).takes = some t ∨ (calls' c).takes = some t -> calls' c = calls c)
    (kept : ids th.id = some t -> ids' th.id = some t) (standing : Standing ids calls t th) :
    Standing ids' calls' t th := by
  have free : Free calls t -> Free calls' t := by
    intro free c taken
    rw [same c (.inr taken)] at taken
    exact free c taken
  have holds : ∀ {c call}, call.takes = some t -> calls c = call -> calls' c = call := by
    intro c call taken here
    rw [same c (.inl (here ▸ taken)), here]
  cases standing with
  | joinable status phase none listed born unowned =>
    exact .joinable status phase none (kept listed) born (free unowned)
  | detached status phase none listed owner =>
    refine .detached status phase none (kept listed) ?_
    exact owner.imp (And.imp_right free) fun ⟨c, here⟩ => ⟨c, holds rfl here⟩
  | zombie status phase none listed born unowned =>
    exact .zombie status phase none (kept listed) born (free unowned)
  | joined status phase none listed owner =>
    obtain ⟨c, vptr, here⟩ := owner
    exact .joined status phase none (kept listed) ⟨c, vptr, holds rfl here⟩
  | gone status phase removed owner =>
    refine .gone status phase removed (owner.imp (And.imp_right free) fun ⟨c, taken, settled⟩ => ⟨c, ?_⟩)
    rw [same c (.inl taken)]
    exact ⟨taken, settled⟩
  | reaped status phase none listed born owner =>
    obtain ⟨c, taken, pending⟩ := owner
    refine .reaped status phase none (kept listed) born ⟨c, ?_⟩
    rw [same c (.inl taken)]
    exact ⟨taken, pending⟩

structure Later (before after : Thread P) : Prop where
  id : after.id = before.id
  exit : before.phase ≠ .running -> after.phase ≠ .running ∧ after.gpr3 = before.gpr3 ∧ after.turn = before.turn
  finished : before.phase = .finished -> after.phase = .finished
  exited : before.joiner = exited -> after.joiner = exited

lemma Later.refl (th : Thread P) : Later th th :=
  ⟨rfl, fun left => ⟨left, rfl, rfl⟩, fun done => done, fun gone => gone⟩

lemma Later.withdrawn (th : Thread P) : Later th th.withdrawn :=
  ⟨rfl, fun left => ⟨left, rfl, rfl⟩, fun done => done, fun gone => gone⟩

def Grows (before after : P -> Option (Thread P)) : Prop :=
  ∀ t th, before t = some th -> ∃ th', after t = some th' ∧ Later th th'

variable (threads : P -> Option (Thread P))

def Ended (t : P) (vret : Nat) : Prop :=
  ∃ th, threads t = some th ∧ th.phase = .finished ∧ th.gpr3 = vret

def Result.Sound (found : Option P) : Result -> Prop
  | .ok => ∃ t, found = some t ∧ (threads t).isSome
  | .delivered vret => ∃ t, found = some t ∧ Ended threads t vret
  | .efault => ∃ t vret, found = some t ∧ Ended threads t vret
  | .error _ => True
  | .again => False
  | .ensureFailed => False

def Call.Sound (threads : P -> Option (Thread P)) : Call P -> Prop
  | .idle => True
  | .waiting t threadId _ _ => ∃ th, threads t = some th ∧ th.id = threadId
  | .removing t threadId vret _ => Ended threads t vret ∧ ∃ th, threads t = some th ∧ th.id = threadId
  | .finishing t => (threads t).isSome
  | .returned found result => result.Sound threads found

variable {before after : P -> Option (Thread P)}

lemma Ended.grows (grows : Grows before after) {vret : Nat} (ended : Ended before t vret) : Ended after t vret := by
  obtain ⟨th, known, finished, register⟩ := ended
  obtain ⟨th', known', later⟩ := grows t th known
  exact ⟨th', known', later.finished finished, (later.exit (by simp [finished])).2.1.trans register⟩

lemma isSome_grows (grows : Grows before after) (known : (before t).isSome) : (after t).isSome := by
  obtain ⟨th, known⟩ := isSome_iff_exists.mp known
  obtain ⟨th', known', -⟩ := grows t th known
  exact isSome_iff_exists.mpr ⟨th', known'⟩

lemma id_grows (grows : Grows before after) {threadId : Nat} (known : ∃ th, before t = some th ∧ th.id = threadId) :
    ∃ th, after t = some th ∧ th.id = threadId := by
  obtain ⟨th, known, same⟩ := known
  obtain ⟨th', known', later⟩ := grows t th known
  exact ⟨th', known', later.id.trans same⟩

lemma Call.Sound.grows (grows : Grows before after) (sound : call.Sound before) : call.Sound after := by
  cases call with
  | idle => trivial
  | waiting t threadId eagain vptr => exact id_grows grows sound
  | removing t threadId vret vptr => exact ⟨sound.1.grows grows, id_grows grows sound.2⟩
  | finishing t => exact isSome_grows grows sound
  | returned found result =>
    cases result with
    | ok =>
      obtain ⟨t, here, known⟩ := sound
      exact ⟨t, here, isSome_grows grows known⟩
    | delivered vret =>
      obtain ⟨t, here, ended⟩ := sound
      exact ⟨t, here, ended.grows grows⟩
    | efault =>
      obtain ⟨t, vret, here, ended⟩ := sound
      exact ⟨t, vret, here, ended.grows grows⟩
    | error code => trivial
    | again | ensureFailed => exact sound

lemma Call.Sound.created {threads : P -> Option (Thread P)} (sound : call.Sound threads)
    (taken : call.takes = some t) : (threads t).isSome := by
  cases call with
  | idle => cases taken
  | waiting t' threadId eagain vptr =>
    cases taken
    obtain ⟨th, known, -⟩ := sound
    simp [known]
  | removing t' threadId vret vptr =>
    cases taken
    obtain ⟨-, th, known, -⟩ := sound
    simp [known]
  | finishing t' =>
    cases taken
    exact sound
  | returned found result =>
    cases result with
    | ok =>
      obtain ⟨t', rfl, known⟩ := sound
      cases taken
      exact known
    | delivered vret =>
      obtain ⟨t', rfl, th, known, -⟩ := sound
      cases taken
      simp [known]
    | efault =>
      obtain ⟨t', vret, rfl, th, known, -⟩ := sound
      cases taken
      simp [known]
    | error code => cases taken
    | again | ensureFailed => exact sound.elim

def Left (threads : P -> Option (Thread P)) (bound : Nat) (o : P) : Prop :=
  ∃ th, threads o = some th ∧ th.joiner = exited ∧ th.phase ≠ .running ∧ th.turn < bound

lemma Left.grows (grows : Grows before after) {bound more : Nat} (larger : bound ≤ more) {o : P}
    (left : Left before bound o) : Left after more o := by
  obtain ⟨th, known, gone, phase, turn⟩ := left
  obtain ⟨th', known', later⟩ := grows o th known
  obtain ⟨phase', -, turn'⟩ := later.exit phase
  exact ⟨th', known', later.exited gone, phase', turn' ▸ turn.trans_le larger⟩

def Phase.releases : Phase -> Nat
  | .running => 0
  | .waiting => 0
  | .released => 1
  | .finished => 1

structure Sound (s : State P) : Prop where
  listed : ∀ id t, s.ids id = some t -> ∃ th, s.threads t = some th ∧ th.id = id
  large : ∀ t th, s.threads t = some th -> idBase ≤ th.id
  standing : ∀ t th, s.threads t = some th -> Standing s.ids s.calls t th
  releases : ∀ t th, s.threads t = some th -> th.releases = th.phase.releases
  once : Once s.calls
  calls : ∀ c, (s.calls c).Sound s.threads
  turn : ∀ t th, s.threads t = some th -> th.phase ≠ .running -> th.turn < s.exits
  old : ∀ o, s.old = some o -> Left s.threads s.exits o
  chain : ∀ t th o, s.threads t = some th -> th.oldPpu = some o -> Left s.threads th.turn o

lemma Sound.refuse {s : State P} (sound : Sound s) {c : Nat} (idle : s.calls c = .idle) (found : Option P)
    (code : Code) : Sound (s.setCall c (.returned found (.error code))) := by
  have same : ∀ d u, (s.calls d).takes = some u ∨
      (update s.calls c (.returned found (.error code)) d).takes = some u ->
      update s.calls c (.returned found (.error code)) d = s.calls d := by
    intro d u takes
    rw [update_apply] at takes ⊢
    split
    next here =>
      rw [here, if_pos rfl, idle] at takes
      rcases takes with none | none <;> cases none
    next => rfl
  refine { sound with standing := ?_, once := ?_, calls := ?_ }
  · exact fun t th known => (sound.standing t th known).frame (fun d => same d t) fun listed => listed
  · exact sound.once.update (by intro t taken; cases taken)
  intro d
  simp only [State.setCall, update_apply]
  split
  · trivial
  · exact sound.calls d

variable [DecidableEq P]

lemma update_cases {β : Type} {f : P -> Option β} {x y : β} {u : P} (here : update f t (some x) u = some y) :
    u = t ∧ y = x ∨ u ≠ t ∧ f u = some y := by
  rw [update_apply] at here
  split at here
  next same => exact .inl ⟨same, (some.inj here).symm⟩
  next other => exact .inr ⟨other, here⟩

lemma Grows.update {threads : P -> Option (Thread P)} {th th' : Thread P} (known : threads t = some th)
    (later : Later th th') : Grows threads (update threads t (some th')) := by
  intro u before here
  by_cases same : u = t
  · subst same
    obtain rfl : th = before := some.inj (known.symm.trans here)
    exact ⟨th', update_self .., later⟩
  · exact ⟨before, (update_of_ne same ..).trans here, .refl before⟩

lemma Sound.change {s : State P} (sound : Sound s) {th : Thread P} (known : s.threads t = some th)
    (th' : Thread P) (later : Later th th') {ids : Nat -> Option P} {old : Option P} {exits : Nat}
    (fewer : ∀ id u, ids id = some u -> s.ids id = some u)
    (others : ∀ id u, u ≠ t -> s.ids id = some u -> ids id = some u)
    (same : ∀ c u, u ≠ t -> (s.calls c).takes = some u ∨ (calls c).takes = some u -> calls c = s.calls c)
    (own : Standing ids calls t th') (releases : th'.releases = th'.phase.releases) (once : Once calls)
    (answers : ∀ c, calls c = s.calls c ∨ (calls c).Sound (update s.threads t (some th')))
    (more : s.exits ≤ exits) (turn : th'.phase ≠ .running -> th'.turn < exits)
    (last : ∀ o, old = some o -> s.old = some o ∨ Left (update s.threads t (some th')) exits o)
    (chain : ∀ o, th'.oldPpu = some o -> th.oldPpu = some o ∧ th'.turn = th.turn ∨
      Left (update s.threads t (some th')) th'.turn o) :
    Sound ⟨update s.threads t (some th'), ids, old, calls, exits⟩ := by
  have grows := Grows.update known later
  constructor
  case listed => exact fun id u here => id_grows grows (sound.listed id u (fewer id u here))
  case large =>
    intro u before here
    rcases update_cases here with ⟨rfl, rfl⟩ | ⟨other, here⟩
    · rw [later.id]
      exact sound.large u th known
    · exact sound.large u before here
  case standing =>
    intro u before here
    rcases update_cases here with ⟨rfl, rfl⟩ | ⟨other, here⟩
    · exact own
    · exact (sound.standing u before here).frame (fun c => same c u other) (others _ u other)
  case releases =>
    intro u before here
    rcases update_cases here with ⟨rfl, rfl⟩ | ⟨other, here⟩
    · exact releases
    · exact sound.releases u before here
  case once => exact once
  case calls =>
    intro c
    rcases answers c with kept | changed
    · exact (congrArg (Call.Sound _) kept).mpr ((sound.calls c).grows grows)
    · exact changed
  case turn =>
    intro u before here phase
    rcases update_cases here with ⟨rfl, rfl⟩ | ⟨other, here⟩
    · exact turn phase
    · exact (sound.turn u before here phase).trans_le more
  case old =>
    intro o here
    rcases last o here with before | left
    · exact (sound.old o before).grows grows more
    · exact left
  case chain =>
    intro u before o here cleans
    rcases update_cases here with ⟨rfl, rfl⟩ | ⟨other, here⟩
    · rcases chain o cleans with ⟨before, turn⟩ | left
      · exact (sound.chain u th o known before).grows grows turn.ge
      · exact left
    · exact (sound.chain u before o here cleans).grows grows le_rfl

end EmuCore.Lv2.PpuJoin
