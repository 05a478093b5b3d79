import EmuCore.Cell.SyncQueueSteps

namespace EmuCore.Cell.SyncQueue

open Function

open Circular (advance back)

variable {T V : Type} [DecidableEq T] {depth : Nat} {s : State T V} {items : List V} {t : T}
  {next : Ctrl} {position : Nat} {value : V}

namespace Inv

variable (inv : Inv depth s items)

include inv

lemma pushBegin (small : depth < 2 ^ 24) (idle : s.phase t = .idle)
    (begun : tryPushBegin s.ctrl depth = some (next, position)) (value : V) :
    Inv depth ((s.moved t next (.pushing position value false)).log (.push value))
      (items ++ [value]) := by
  obtain ⟨⟨free, room⟩, rfl, follows, count, push, pop⟩ := tryPushBegin_some inv.next small begun
  have fits : items.length < depth := by
    rcases inv.length_cases with length | ⟨length, held⟩ <;> omega
  constructor <;> dsimp only [State.moved, State.log]
  case run => exact inv.run.step (.push fits)
  case next =>
    rw [follows]
    exact Circular.advance_lt inv.next
  case pushes => exact inv.pushes.acquire free (by omega)
  case pops =>
    rw [pop]
    exact inv.pops.keep fun held => held.elim
  case shape =>
    rw [follows, count]
    refine inv.shape.pushBegin inv.next idle (inv.nobody_pushes free) fits fun u place peek result here => ?_
    have held := inv.pop_held here
    omega

lemma pushCopy (here : s.phase t = .pushing position value false) :
    Inv depth { s.moved t s.ctrl (.pushing position value true) with
      buffer := update s.buffer position value } items := by
  constructor <;> dsimp only [State.moved]
  case run => exact inv.run
  case next => exact inv.next
  case pushes => exact inv.pushes.keep fun _ => by rw [here]; trivial
  case pops => exact inv.pops.keep fun held => held.elim
  case shape => exact inv.shape.pushCopy inv.run.bounded here

lemma rephase {p : Phase V} (same : next.next = s.ctrl.next) (count : next.count = s.ctrl.count)
    (pushes : Exclusive Phase.HoldsPush (update s.phase t p) next.push)
    (pops : Exclusive Phase.HoldsPop (update s.phase t p) next.pop)
    (before : (∀ place, s.phase t ≠ .taking place false none) ∧ ∀ place item, s.phase t ≠ .pushing place item false)
    (after : (∀ place, p ≠ .taking place false none) ∧ ∀ place item copied, p ≠ .pushing place item copied)
    (takes : ∀ place peek result, p = .taking place peek result ->
      ∃ earlier, s.phase t = .taking place peek earlier) :
    Inv depth (s.moved t next p) items := by
  constructor <;> dsimp only [State.moved]
  case run => exact inv.run
  case next =>
    rw [same]
    exact inv.next
  case pushes => exact pushes
  case pops => exact pops
  case shape =>
    rw [same, count]
    refine inv.shape.rephase before.1 after.1 takes ?_ ?_
    · exact fun place item copied pushing => absurd pushing (after.2 place item copied)
    · exact fun found => inv.shape.stored_after (fun place item pushing => absurd pushing (before.2 place item)) found

lemma pushEnd (here : s.phase t = .pushing position value true) :
    Inv depth (s.moved t (SyncQueue.pushEnd s.ctrl) .idle) items := by
  refine inv.rephase (by simp [SyncQueue.pushEnd]) (by simp [SyncQueue.pushEnd]) ?_ ?_ (by simp [here]) (by simp) (by simp)
  · exact inv.pushes.release (by rw [here]; trivial) (by exact not_false) _
  · rw [SyncQueue.pushEnd, Ctrl.pop_setPush]
    exact inv.pops.keep fun held => held.elim

lemma take (idle : s.phase t = .idle) {peek : Bool}
    (free : s.ctrl.pop = 0 ∧ s.ctrl.push < s.ctrl.count)
    (slot : position % depth = back depth s.ctrl.next s.ctrl.count) (same : next.next = s.ctrl.next)
    (count : span peek next.count = s.ctrl.count) (push : next.push = s.ctrl.push)
    (pop : next.pop = 1) : Inv depth (s.moved t next (.taking position peek none)) items := by
  constructor <;> dsimp only [State.moved]
  case run => exact inv.run
  case next =>
    rw [same]
    exact inv.next
  case pushes =>
    rw [push]
    exact inv.pushes.keep fun held => held.elim
  case pops => exact inv.pops.acquire free.1 (by omega)
  case shape =>
    rw [same]
    refine inv.shape.take idle (inv.nobody_takes free.1) (by omega) inv.count_le count slot ?_
    intro u place item copied here
    have held := inv.push_held here
    omega

lemma popCopy {peek : Bool}
    (here : s.phase t = .taking position peek none) :
    ∃ rest, Inv depth ((s.moved t s.ctrl (.taking position peek (some (s.buffer (position % depth))))).log
      (if peek then .peek (s.buffer (position % depth)) else .pop (s.buffer (position % depth)))) rest := by
  have held : (s.phase t).HoldsPop := by rw [here]; trivial
  have alone : ∀ u place other result, s.phase u = .taking place other result -> u = t :=
    fun u place other result there => inv.pops.one (by rw [there]; trivial) held
  cases peek with
  | false =>
    obtain ⟨rest, rfl⟩ := inv.shape.first here (inv.shape.waiting here)
    refine ⟨rest, ?_, ?_, ?_, ?_, ?_⟩ <;> dsimp only [State.moved, State.log]
    · exact inv.run.step .pop
    · exact inv.next
    · exact inv.pushes.keep fun held => held.elim
    · exact inv.pops.keep fun _ => held
    · exact inv.shape.popCopy here alone
  | true =>
    have length : items.length = span true s.ctrl.count := by
      apply inv.shape.settled
      intro u place waits
      obtain rfl := alone u place false none waits
      rw [here] at waits
      cases waits
    obtain ⟨rest, rfl⟩ := inv.shape.first here length
    have moved : Inv depth (s.moved t s.ctrl (.taking position true (some (s.buffer (position % depth))))) _ :=
      inv.rephase rfl rfl (inv.pushes.keep fun held => held.elim) (inv.pops.keep fun _ => held) (by simp [here])
        (by simp) (by simp [here])
    exact ⟨_, { moved with run := moved.run.step .peek }⟩

lemma popEnd {peek : Bool}
    (here : s.phase t = .taking position peek (some value)) :
    Inv depth (s.moved t (SyncQueue.popEnd s.ctrl) .idle) items := by
  refine inv.rephase (by simp [SyncQueue.popEnd]) (by simp [SyncQueue.popEnd]) ?_ ?_ (by simp [here]) (by simp) (by simp)
  · rw [SyncQueue.popEnd, Ctrl.push_setPop]
    exact inv.pushes.keep fun held => held.elim
  · exact inv.pops.release (by rw [here]; trivial) (by exact not_false) _

lemma clearStore (positive : 0 < depth)
    (here : s.phase t = .clearing true) : Inv depth ((s.moved t ⟨0, 0⟩ .idle).log .clear) [] := by
  have pushes := inv.pushes.release (t := t) (p := .idle) (by rw [here]; trivial) (by exact not_false)
    (Ctrl.push ⟨0, 0⟩)
  have pops := inv.pops.release (t := t) (p := .idle) (by rw [here]; trivial) (by exact not_false)
    (Ctrl.pop ⟨0, 0⟩)
  have noPush : ∀ {u place item copied}, update s.phase t .idle u ≠ .pushing place item copied :=
    fun {u _ _ _} there => pushes.free rfl u (by rw [there]; trivial)
  have noTake : ∀ {u place peek result}, update s.phase t .idle u ≠ .taking place peek result :=
    fun {u _ _ _} there => pops.free rfl u (by rw [there]; trivial)
  constructor <;> dsimp only [State.moved, State.log]
  case run => exact inv.run.step .clear
  case next => exact positive
  case pushes => exact pushes
  case pops => exact pops
  case shape =>
    constructor
    case settled => exact fun _ => rfl
    case waiting => exact fun there => absurd there noTake
    case taking => exact fun there => absurd there noTake
    case pushing => exact fun there => absurd there noPush
    case both => exact fun there => absurd there noTake
    case stored => exact fun found => by simp at found

end Inv

variable {s next : State T V}

lemma Inv.step (inv : Inv depth s items) (positive : 0 < depth) (small : depth < 2 ^ 24)
    {a : Action T V} (move : s.step depth a = some next) : ∃ items, Inv depth next items := by
  revert move
  fun_cases State.step depth s a with
  | case1 | case8 | case11 | case18 | case21 =>
    -- The control word has no room, no item, or is held.
    rintro ⟨⟩
    exact ⟨items, inv⟩
  | case2 t value idle ctrl position begun =>
    rintro ⟨⟩
    exact ⟨_, inv.pushBegin small idle begun value⟩
  | case4 t position value here =>
    rintro ⟨⟩
    exact ⟨items, inv.pushCopy here⟩
  | case6 t position value here =>
    rintro ⟨⟩
    exact ⟨items, inv.pushEnd here⟩
  | case9 t idle ctrl position begun =>
    rintro ⟨⟩
    obtain ⟨free, slot, same, count, push, pop⟩ := tryPopBegin_some inv.next small inv.count_le begun
    exact ⟨items, inv.take idle free slot same count push pop⟩
  | case12 t idle ctrl position begun =>
    rintro ⟨⟩
    obtain ⟨free, slot, same, count, push, pop⟩ := tryPeekBegin_some inv.next small inv.count_le begun
    exact ⟨items, inv.take idle free slot same count push pop⟩
  | case14 t position peek here =>
    rintro ⟨⟩
    exact inv.popCopy here
  | case16 t position peek value here =>
    rintro ⟨⟩
    exact ⟨items, inv.popEnd here⟩
  | case19 t idle ctrl begun =>
    rintro ⟨⟩
    obtain ⟨free, same⟩ := Option.ite_none_left_eq_some.mp begun
    cases same
    refine ⟨items, inv.rephase (by simp) (by simp) ?_ ?_ (by simp [idle]) (by simp) (by simp)⟩
    · rw [Ctrl.push_setPop]
      exact inv.pushes.keep fun held => by cases held
    · exact inv.pops.acquire (not_not.mp free) (by simp)
  | case22 t here ctrl begun =>
    rintro ⟨⟩
    obtain ⟨free, same⟩ := Option.ite_none_left_eq_some.mp begun
    cases same
    refine ⟨items, inv.rephase (by simp) (by simp) ?_ ?_ (by simp [here]) (by simp) (by simp)⟩
    · exact inv.pushes.acquire (not_not.mp free) (by simp)
    · rw [Ctrl.pop_setPush]
      exact inv.pops.keep fun _ => by rw [here]; trivial
  | case24 t here =>
    rintro ⟨⟩
    exact ⟨[], inv.clearStore positive here⟩
  | case26 t here =>
    rintro ⟨⟩
    refine ⟨items, inv.rephase rfl rfl ?_ ?_ (by simp [here]) (by simp) (by simp)⟩
    · exact inv.pushes.keep fun held => held.elim
    · exact inv.pops.keep fun held => held.elim
  | _ => rintro ⟨⟩

lemma queue_inv (positive : 0 < depth) (small : depth < 2 ^ 24)
    (reach : (queue T V depth).Reachable s) : ∃ items, Inv depth s items := by
  refine reach.invariant (P := fun s => ∃ items, Inv depth s items) ?_ ?_
  · rintro s ⟨zero, idle, nothing⟩
    refine ⟨[], ?_, ?_, ?_, ?_, ?_⟩
    · rw [nothing]
      exact .init
    · rw [zero]
      exact positive
    · exact ⟨fun _ t held => by simp [idle, Phase.HoldsPush] at held,
        fun held => by simp [idle, Phase.HoldsPush] at held⟩
    · exact ⟨fun _ t held => by simp [idle, Phase.HoldsPop] at held,
        fun held => by simp [idle, Phase.HoldsPop] at held⟩
    rw [zero]
    constructor
    case settled => exact fun _ => rfl
    case stored => exact fun found => by simp at found
    case waiting | taking | pushing | both => simp [idle]
  · rintro s a next ⟨items, inv⟩ move
    exact inv.step positive small move

namespace Phase

def writes : Phase V -> Option Nat
  | .pushing position _ _ => some position
  | _ => none

def reads (depth : Nat) : Phase V -> Option Nat
  | .taking position _ _ => some (position % depth)
  | _ => none

end Phase

omit [DecidableEq T] in
lemma Inv.disjoint (inv : Inv depth s items) {t u : T} {i j : Nat} (writes : (s.phase t).writes = some i)
    (reads : (s.phase u).reads depth = some j) : i < depth ∧ j < depth ∧ i ≠ j := by
  cases pushing : s.phase t with
  | pushing position value copied =>
    cases taking : s.phase u with
    | taking place peek result =>
      rw [pushing] at writes
      rw [taking] at reads
      cases writes
      cases reads
      obtain ⟨inside, follows, _⟩ := inv.shape.pushing pushing
      obtain ⟨low, high, slot⟩ := inv.shape.taking taking
      have two := inv.shape.both taking pushing
      refine ⟨inside, Nat.mod_lt _ (by omega), fun same => ?_⟩
      rw [slot, follows] at same
      have := Circular.back_inj (Circular.advance_lt inside) le_rfl (by omega) low high
        ((Circular.back_one inside).trans same)
      omega
    | _ => simp [taking, Phase.reads] at reads
  | _ => simp [pushing, Phase.writes] at writes

omit [DecidableEq T] in
lemma Inv.begins (inv : Inv depth s items) (noPush : s.ctrl.push = 0) (noPop : s.ctrl.pop = 0) :
    (tryPushBegin s.ctrl depth = none ↔ items.length = depth) ∧
      (tryPopBegin s.ctrl depth = none ↔ items = []) ∧
      (tryPeekBegin s.ctrl depth = none ↔ items = []) := by
  have length : items.length = s.ctrl.count := inv.length_cases.resolve_right fun other => other.2 noPop
  have bounded := inv.count_le
  rw [← List.length_eq_zero_iff]
  simp only [tryPushBegin, tryPopBegin, tryPeekBegin, noPush, noPop, length, ne_eq, not_true_eq_false,
    false_or, ite_eq_left_iff, reduceCtorEq, imp_false, not_not]
  omega

theorem queue_linearizable (positive : 0 < depth) (small : depth < 2 ^ 24)
    (reach : (queue T V depth).Reachable s) :
    (∀ t u, (s.phase t).HoldsPush -> (s.phase u).HoldsPush -> t = u) ∧
    (∀ t u, (s.phase t).HoldsPop -> (s.phase u).HoldsPop -> t = u) ∧
    (∀ t u i j, (s.phase t).writes = some i -> (s.phase u).reads depth = some j ->
      i < depth ∧ j < depth ∧ i ≠ j) ∧
    (s.ctrl.next < depth ∧ s.ctrl.count ≤ depth ∧ checkDepth s.ctrl depth = some depth) ∧
    ∃ items done, Fifo.Run depth s.history items ∧ Fifo.Ledger s.history items done ∧
      (s.ctrl.push = 0 -> s.ctrl.pop = 0 ->
        (tryPushBegin s.ctrl depth = none ↔ items.length = depth) ∧
        (tryPopBegin s.ctrl depth = none ↔ items = []) ∧
        (tryPeekBegin s.ctrl depth = none ↔ items = [])) := by
  obtain ⟨items, inv⟩ := queue_inv positive small reach
  obtain ⟨done, ledger⟩ := inv.run.ledger
  have next := inv.next
  have count := inv.count_le
  refine ⟨fun t u => inv.pushes.one, fun t u => inv.pops.one, fun t u i j => inv.disjoint,
    ⟨next, count, ?_⟩, items, done, inv.run, ledger, inv.begins⟩
  rw [checkDepth, if_neg (by omega)]

def overlapping : List (Action Bool Nat) :=
  [.pushBegin true 5, .pushCopy true, .pushEnd true, .popBegin false, .pushBegin true 6, .popCopy false,
    .pushCopy true, .popEnd false, .pushEnd true, .clearBegin1 false, .clearBegin2 false,
    .clearStore false]

def created : State Bool Nat := ⟨⟨0, 0⟩, fun _ => 0, fun _ => .idle, []⟩

theorem queue_linearizable_overlapping :
    ∃ s, (queue Bool Nat 2).run created overlapping = some s ∧
      s.history = [.push 5, .push 6, .pop 5, .clear] ∧
      ∃ items done, Fifo.Run 2 s.history items ∧ Fifo.Ledger s.history items done := by
  have ran := (Option.some_get
    (show ((queue Bool Nat 2).run created overlapping).isSome by decide)).symm
  have start : (queue Bool Nat 2).Reachable created := .init ⟨rfl, fun _ => rfl, rfl⟩
  obtain ⟨_, _, _, _, items, done, run, ledger, _⟩ :=
    queue_linearizable (by decide) (by decide) (start.run overlapping ran)
  exact ⟨_, ran, by decide, items, done, run, ledger⟩

end EmuCore.Cell.SyncQueue
