import EmuCore.Cell.SyncQueue
import EmuCore.Lib.Circular
import EmuCore.Lib.Exclusive

namespace EmuCore.Cell.SyncQueue

open Circular (advance back)

section Begin

variable {depth position : Nat} {c next : Ctrl}

variable (inside : c.next < depth)

include inside

variable (small : depth < 2 ^ 24)

include small

lemma tryPushBegin_some
    (begun : tryPushBegin c depth = some (next, position)) :
    (c.push = 0 ∧ c.count + c.pop < depth) ∧ position = c.next ∧ next.next = advance depth c.next ∧
      next.count = c.count + 1 ∧ next.push = 1 ∧ next.pop = c.pop := by
  obtain ⟨free, ⟨⟩⟩ := Option.ite_none_left_eq_some.mp begun
  have wrapped := Circular.advance_lt inside
  rw [← advance]
  simp only [not_or, not_not, not_le] at free
  simp only [Ctrl.next_setPush, Ctrl.next_setCount, Ctrl.next_setNext, Ctrl.count_setPush,
    Ctrl.count_setCount, Ctrl.push_setPush, Ctrl.pop_setPush, Ctrl.pop_setCount, Ctrl.pop_setNext,
    and_true, true_and, free]
  exact ⟨Nat.mod_eq_of_lt (by omega), Nat.mod_eq_of_lt (by omega), rfl⟩

lemma position_eq {count : Nat} (some : 0 < count)
    (full : count ≤ depth) : (c.next + depth + (2 ^ 32 - count)) % 2 ^ 32 % depth =
      back depth c.next count := by
  rw [back]
  congr 1
  omega

lemma tryPopBegin_some (full : c.count ≤ depth)
    (begun : tryPopBegin c depth = some (next, position)) :
    (c.pop = 0 ∧ c.push < c.count) ∧ position % depth = back depth c.next c.count ∧
      next.next = c.next ∧ next.count + 1 = c.count ∧ next.push = c.push ∧ next.pop = 1 := by
  obtain ⟨free, ⟨⟩⟩ := Option.ite_none_left_eq_some.mp begun
  simp only [not_or, not_not, not_le] at free
  refine ⟨free, position_eq inside small (by omega) full, ?_, ?_, ?_, ?_⟩
  · simp
  · rw [Ctrl.count_setCount, Nat.mod_eq_of_lt (by omega)]
    omega
  · simp
  · simp

lemma tryPeekBegin_some (full : c.count ≤ depth)
    (begun : tryPeekBegin c depth = some (next, position)) :
    (c.pop = 0 ∧ c.push < c.count) ∧ position % depth = back depth c.next c.count ∧
      next.next = c.next ∧ next.count = c.count ∧ next.push = c.push ∧ next.pop = 1 := by
  obtain ⟨free, ⟨⟩⟩ := Option.ite_none_left_eq_some.mp begun
  simp only [not_or, not_not, not_le] at free
  refine ⟨free, position_eq inside small (by omega) full, ?_, ?_, ?_, ?_⟩ <;> simp

end Begin

namespace Phase

variable {V : Type}

def HoldsPush : Phase V -> Prop
  | .pushing .. => True
  | .clearing both => both = true
  | _ => False

def HoldsPop : Phase V -> Prop
  | .taking .. => True
  | .clearing _ => True
  | _ => False

end Phase

def span (peek : Bool) (count : Nat) : Nat := if peek then count else count + 1

variable {T V : Type}

/-- The numbers, the buffer and the threads stand for a queue with these items: an item enters it when
its push begins, and leaves it when a pop has copied it. -/
structure Shape (depth next count : Nat) (buffer : Nat -> V) (phase : T -> Phase V) (items : List V) :
    Prop where
  settled : (∀ t position, phase t ≠ .taking position false none) -> items.length = count
  waiting : ∀ {t position}, phase t = .taking position false none -> items.length = count + 1
  taking : ∀ {t position peek result}, phase t = .taking position peek result ->
    1 ≤ span peek count ∧ span peek count ≤ depth ∧
      position % depth = back depth next (span peek count)
  pushing : ∀ {t position value copied}, phase t = .pushing position value copied ->
    position < depth ∧ next = advance depth position ∧ items.getLast? = some value
  both : ∀ {t u position peek result place value copied}, phase t = .taking position peek result ->
    phase u = .pushing place value copied -> 2 ≤ span peek count
  stored : ∀ {i value}, items[i]? = some value ->
    buffer (back depth next (items.length - i)) = value ∨
      i + 1 = items.length ∧ ∃ t position, phase t = .pushing position value false

variable {position : Nat}

lemma Shape.first {depth next count : Nat} {buffer : Nat -> V} {phase : T -> Phase V} {items : List V} {t : T}
    (shape : Shape depth next count buffer phase items) {peek : Bool} {result : Option V}
    (here : phase t = .taking position peek result) (length : items.length = span peek count) :
    ∃ rest, items = buffer (position % depth) :: rest := by
  obtain ⟨low, _, slot⟩ := shape.taking here
  cases items with
  | nil =>
    rw [List.length_nil] at length
    omega
  | cons item rest =>
    have front : (item :: rest)[0]? = some item := rfl
    rcases shape.stored front with same | ⟨single, u, place, pushing⟩
    · rw [Nat.sub_zero, length, ← slot] at same
      exact ⟨rest, by rw [same]⟩
    · have := shape.both here pushing
      omega

structure Inv (depth : Nat) (s : State T V) (items : List V) : Prop where
  run : Fifo.Run depth s.history items
  next : s.ctrl.next < depth
  pushes : Exclusive Phase.HoldsPush s.phase s.ctrl.push
  pops : Exclusive Phase.HoldsPop s.phase s.ctrl.pop
  shape : Shape depth s.ctrl.next s.ctrl.count s.buffer s.phase items

namespace Inv

variable {depth : Nat} {s : State T V} {items : List V}

variable (inv : Inv depth s items)

include inv

lemma length_cases :
    items.length = s.ctrl.count ∨ items.length = s.ctrl.count + 1 ∧ s.ctrl.pop ≠ 0 := by
  by_cases waits : ∃ t position, s.phase t = .taking position false none
  · obtain ⟨t, position, here⟩ := waits
    refine .inr ⟨inv.shape.waiting here, fun free => inv.pops.free free t ?_⟩
    rw [here]
    trivial
  · push Not at waits
    exact .inl (inv.shape.settled waits)

lemma count_le : s.ctrl.count ≤ depth := by
  have bounded := inv.run.bounded
  rcases inv.length_cases with length | ⟨length, _⟩ <;> omega

lemma nobody_pushes (free : s.ctrl.push = 0) (t : T) (position : Nat)
    (value : V) (copied : Bool) : s.phase t ≠ .pushing position value copied := by
  intro here
  apply inv.pushes.free free t
  rw [here]
  trivial

lemma nobody_takes (free : s.ctrl.pop = 0) (t : T) (position : Nat)
    (peek : Bool) (result : Option V) : s.phase t ≠ .taking position peek result := by
  intro here
  apply inv.pops.free free t
  rw [here]
  trivial

lemma push_held {t : T} {value : V} {copied : Bool}
    (here : s.phase t = .pushing position value copied) : s.ctrl.push ≠ 0 :=
  fun free => inv.nobody_pushes free t position value copied here

lemma pop_held {t : T} {peek : Bool} {result : Option V}
    (here : s.phase t = .taking position peek result) : s.ctrl.pop ≠ 0 :=
  fun free => inv.nobody_takes free t position peek result here

end Inv

open List Function

lemma update_eq {T P : Type} [DecidableEq T] {phase : T -> P} {t u : T} {p q : P} :
    update phase t p u = q ↔ u = t ∧ p = q ∨ u ≠ t ∧ phase u = q := by
  by_cases same : u = t
  · subst same
    simp
  · simp [same]

lemma span_succ (peek : Bool) (count : Nat) : span peek (count + 1) = span peek count + 1 := by
  cases peek <;> rfl

lemma span_le (peek : Bool) (count : Nat) : span peek count ≤ count + 1 := by
  cases peek
  · exact le_rfl
  · exact Nat.le_succ count

variable [DecidableEq T] {depth next count : Nat} {buffer : Nat -> V} {phase : T -> Phase V} {items : List V} {t : T} {value : V}

namespace Shape

lemma settled_before {p : Phase V}
    (none_ : ∀ u place, update phase t p u ≠ .taking place false none)
    (here : ∀ place, phase t ≠ .taking place false none) (u : T) (place : Nat) :
    phase u ≠ .taking place false none := by
  intro waits
  by_cases same : u = t
  · subst same
    exact here place waits
  · exact none_ u place (update_eq.mpr (.inr ⟨same, waits⟩))

variable (shape : Shape depth next count buffer phase items)

include shape

lemma pushBegin (inside : next < depth)
    (idle : phase t = .idle) (alone : ∀ u place value copied, phase u ≠ .pushing place value copied)
    (room : items.length < depth)
    (held : ∀ u place peek result, phase u = .taking place peek result -> count + 1 < depth) :
    Shape depth (advance depth next) (count + 1) buffer
      (update phase t (.pushing next value false)) (items ++ [value]) := by
  constructor
  case settled =>
    intro none_
    rw [length_append, shape.settled (settled_before none_ (by simp [idle]))]
    rfl
  case waiting =>
    intro u place here
    rcases update_eq.mp here with ⟨_, here⟩ | ⟨_, here⟩
    · cases here
    · rw [length_append, shape.waiting here]
      rfl
  case taking =>
    intro u place peek result here
    rcases update_eq.mp here with ⟨_, here⟩ | ⟨_, here⟩
    · cases here
    obtain ⟨low, _, slot⟩ := shape.taking here
    have fits : span peek count + 1 ≤ depth :=
      (Nat.succ_le_succ (span_le peek count)).trans (held u place peek result here)
    rw [span_succ]
    exact ⟨by omega, fits, by rw [slot, Circular.back_succ inside low fits]⟩
  case pushing =>
    intro u place item copied here
    rcases update_eq.mp here with ⟨_, here⟩ | ⟨_, here⟩
    · cases here
      exact ⟨inside, rfl, by simp⟩
    · exact absurd here (alone _ _ _ _)
  case both =>
    intro u v place peek result place' item copied here _
    rcases update_eq.mp here with ⟨_, here⟩ | ⟨_, here⟩
    · cases here
    · rw [span_succ]
      exact Nat.succ_le_succ (shape.taking here).1
  case stored =>
    intro i item found
    rw [length_append, length_singleton]
    by_cases old : i < items.length
    · rw [getElem?_append_left old] at found
      rcases shape.stored found with same | ⟨_, u, place, here⟩
      · left
        rw [show items.length + 1 - i = items.length - i + 1 by omega,
          Circular.back_succ inside (by omega) (by omega), same]
      · exact absurd here (alone _ _ _ _)
    · obtain ⟨inside', rfl⟩ := List.getElem?_eq_some_iff.mp found
      rw [length_append, length_singleton] at inside'
      obtain rfl : i = items.length := by omega
      exact .inr ⟨rfl, t, next, by simp⟩

lemma rephase {p : Phase V} {copy : Nat -> V}
    (before : ∀ place, phase t ≠ .taking place false none) (after : ∀ place, p ≠ .taking place false none)
    (takes : ∀ place peek result, p = .taking place peek result ->
      ∃ earlier, phase t = .taking place peek earlier)
    (pushes : ∀ place value copied, p = .pushing place value copied ->
      ∃ earlier, phase t = .pushing place value earlier)
    (stored : ∀ {i item}, items[i]? = some item ->
      copy (back depth next (items.length - i)) = item ∨
        i + 1 = items.length ∧
          ∃ u place, update phase t p u = .pushing place item false) :
    Shape depth next count copy (update phase t p) items := by
  have earlierTake : ∀ {u place peek result},
      update phase t p u = .taking place peek result ->
        ∃ v earlier, phase v = .taking place peek earlier := fun {u place peek result} here => by
    rcases update_eq.mp here with ⟨_, here⟩ | ⟨_, here⟩
    · exact ⟨t, takes place peek result here⟩
    · exact ⟨u, result, here⟩
  have earlierPush : ∀ {u place value copied},
      update phase t p u = .pushing place value copied ->
        ∃ v earlier, phase v = .pushing place value earlier := fun {u place value copied} here => by
    rcases update_eq.mp here with ⟨_, here⟩ | ⟨_, here⟩
    · exact ⟨t, pushes place value copied here⟩
    · exact ⟨u, copied, here⟩
  constructor
  case settled => exact fun none_ => shape.settled (settled_before none_ before)
  case waiting =>
    intro u place here
    rcases update_eq.mp here with ⟨_, here⟩ | ⟨_, here⟩
    · exact absurd here (after place)
    · exact shape.waiting here
  case taking =>
    intro u place peek result here
    obtain ⟨v, earlier, there⟩ := earlierTake here
    exact shape.taking there
  case pushing =>
    intro u place item copied here
    obtain ⟨v, earlier, there⟩ := earlierPush here
    exact shape.pushing there
  case both =>
    intro u v place peek result place' item copied taking pushing
    obtain ⟨u', earlier, taking⟩ := earlierTake taking
    obtain ⟨v', earlier', pushing⟩ := earlierPush pushing
    exact shape.both taking pushing
  case stored => exact stored

lemma stored_after {p : Phase V}
    (copies : ∀ place item, phase t = .pushing place item false -> p = .pushing place item false)
    {i : Nat} {item : V} (found : items[i]? = some item) :
    buffer (back depth next (items.length - i)) = item ∨
      i + 1 = items.length ∧ ∃ u place, update phase t p u = .pushing place item false := by
  refine (shape.stored found).imp_right ?_
  rintro ⟨last, u, place, here⟩
  refine ⟨last, u, place, ?_⟩
  by_cases same : u = t
  · subst same
    rw [update_self, copies place item here]
  · rw [update_of_ne same, here]

lemma pushCopy (room : items.length ≤ depth)
    (here : phase t = .pushing position value false) :
    Shape depth next count (update buffer position value)
      (update phase t (.pushing position value true)) items := by
  obtain ⟨inside, rfl, last⟩ := shape.pushing here
  have slots : ∀ {i item}, items[i]? = some item ->
      update buffer position value
        (back depth (advance depth position) (items.length - i)) = item := by
    intro i item found
    have bound := (List.getElem?_eq_some_iff.mp found).1
    by_cases final : i + 1 = items.length
    · rw [show items.length - i = 1 by omega, Circular.back_one inside, update_self]
      rw [getLast?_eq_getElem?, show items.length - 1 = i by omega, found] at last
      exact (Option.some.inj last).symm
    have apart : back depth (advance depth position) (items.length - i) ≠ position := by
      intro same
      have := Circular.back_inj (Circular.advance_lt inside) (by omega) (by omega) le_rfl (by omega)
        (same.trans (Circular.back_one inside).symm)
      omega
    rw [update_of_ne apart]
    exact (shape.stored found).resolve_right fun other => final other.1
  apply shape.rephase
  · simp [here]
  · simp
  · simp
  · intro place item copied same
    cases same
    exact ⟨false, here⟩
  · exact fun found => .inl (slots found)

lemma take (idle : phase t = .idle)
    (alone : ∀ u place peek result, phase u ≠ .taking place peek result) {peek : Bool} {left : Nat}
    (low : 1 ≤ count) (high : count ≤ depth) (whole : span peek left = count)
    (slot : position % depth = back depth next count)
    (two : ∀ u place item copied, phase u = .pushing place item copied -> 2 ≤ count) :
    Shape depth next left buffer (update phase t (.taking position peek none)) items := by
  have length := shape.settled fun u place => alone u place false none
  constructor
  case settled =>
    intro none_
    cases peek with
    | false => exact absurd (update_self ..) (none_ t position)
    | true => exact length.trans whole.symm
  case waiting =>
    intro u place here
    rcases update_eq.mp here with ⟨_, here⟩ | ⟨_, here⟩
    · cases here
      exact length.trans whole.symm
    · exact absurd here (alone _ _ _ _)
  case taking =>
    intro u place peek' result here
    rcases update_eq.mp here with ⟨_, here⟩ | ⟨_, here⟩
    · cases here
      rw [whole]
      exact ⟨low, high, slot⟩
    · exact absurd here (alone _ _ _ _)
  case pushing =>
    intro u place item copied here
    rcases update_eq.mp here with ⟨_, here⟩ | ⟨_, here⟩
    · cases here
    · exact shape.pushing here
  case both =>
    intro u v place peek' result place' item copied taking pushing
    rcases update_eq.mp taking with ⟨_, taking⟩ | ⟨_, taking⟩
    · cases taking
      rcases update_eq.mp pushing with ⟨_, pushing⟩ | ⟨_, pushing⟩
      · cases pushing
      · rw [whole]
        exact two _ _ _ _ pushing
    · exact absurd taking (alone _ _ _ _)
  case stored => exact fun found => shape.stored_after (by simp [idle]) found

omit shape

lemma popCopy {item : V} (shape : Shape depth next count buffer phase (item :: items))
    (here : phase t = .taking position false none)
    (alone : ∀ u place peek result, phase u = .taking place peek result -> u = t) :
    Shape depth next count buffer
      (update phase t (.taking position false (some item))) items := by
  have length := shape.waiting here
  rw [length_cons] at length
  constructor
  case settled => exact fun _ => by omega
  case waiting =>
    intro u place waits
    rcases update_eq.mp waits with ⟨_, waits⟩ | ⟨other, waits⟩
    · cases waits
    · exact absurd (alone _ _ _ _ waits) other
  case taking =>
    intro u place peek result takes
    rcases update_eq.mp takes with ⟨_, takes⟩ | ⟨other, takes⟩
    · cases takes
      exact shape.taking here
    · exact absurd (alone _ _ _ _ takes) other
  case pushing =>
    intro u place last copied pushing
    rcases update_eq.mp pushing with ⟨_, pushing⟩ | ⟨_, pushing⟩
    · cases pushing
    obtain ⟨inside, follows, final⟩ := shape.pushing pushing
    have two := shape.both here pushing
    rw [span, if_neg (by simp)] at two
    refine ⟨inside, follows, ?_⟩
    cases items with
    | nil =>
      rw [length_nil] at length
      omega
    | cons second rest => exact final
  case both =>
    intro u v place peek result place' last copied takes pushing
    rcases update_eq.mp pushing with ⟨_, pushing⟩ | ⟨_, pushing⟩
    · cases pushing
    rcases update_eq.mp takes with ⟨_, takes⟩ | ⟨other, takes⟩
    · cases takes
      exact shape.both here pushing
    · exact absurd (alone _ _ _ _ takes) other
  case stored =>
    intro i last found
    have found' : (item :: items)[i + 1]? = some last := found
    have old := shape.stored_after (t := t) (p := .taking position false (some item)) (by simp [here]) found'
    rwa [length_cons, Nat.add_sub_add_right, Nat.add_right_cancel_iff] at old

end Shape

end EmuCore.Cell.SyncQueue
