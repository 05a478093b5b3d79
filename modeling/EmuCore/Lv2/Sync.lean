import Mathlib.Tactic

namespace EmuCore.Lv2

open List Bool

-- Ids fit in 31 bits: the code shifts the u32 id of a thread left by one.
structure ThreadId where
  id : Nat
  pos : 0 < id
  small : id < 2 ^ 31
deriving DecidableEq

def ThreadId.nth (n : Nat) : ThreadId := ⟨n % (2 ^ 31 - 1) + 1, by omega, by omega⟩

inductive Protocol
  | fifo
  | priority
  | priorityInherit
  | retry
deriving DecidableEq, Repr

structure Prio where
  prio : Int
  order : Int
deriving DecidableEq, Repr

def Prio.before (a b : Prio) : Bool :=
  decide (a.prio < b.prio) || (a.prio == b.prio && decide (a.order < b.order))

/-- A wait queue is listed from its head, the thread that was pushed last. -/
abbrev WaitQueue := List ThreadId

variable (first : WaitQueue) (object : ThreadId)

def unqueue : Option WaitQueue :=
  if object ∈ first then some (first.erase object) else none

def emplace : WaitQueue := object :: first

def scheduleScan (prio : ThreadId -> Prio) : ThreadId -> WaitQueue -> ThreadId
  | found, [] => found
  | found, next :: rest =>
    scheduleScan prio (if (prio next).before (prio found) then next else found) rest

variable (protocol : Protocol) (prio : ThreadId -> Prio)

def scheduleFound (it : ThreadId)
    (rest : WaitQueue) : ThreadId :=
  if protocol = .fifo then (it :: rest).getLast (List.cons_ne_nil it rest)
  else scheduleScan prio it rest

def schedule :
    WaitQueue -> Option (ThreadId × WaitQueue)
  | [] => none
  | it :: rest =>
    let found := scheduleFound protocol prio it rest
    some (found, (it :: rest).erase found)

def Prescribed (queue : WaitQueue)
    (found : ThreadId) : Prop :=
  if protocol = .fifo then queue.getLast? = some found
  else found ∈ queue ∧ ∀ t ∈ queue, (prio t).before (prio found) = false

lemma before_trans {a b c : Prio} (ab : a.before b = false) (bc : b.before c = false) :
    a.before c = false := by
  simp only [Prio.before, or_eq_false_iff, and_eq_false_iff, decide_eq_false_iff_not,
    beq_eq_false_iff_ne, ne_eq] at *
  omega

lemma before_asymm {a b : Prio} (ab : a.before b = true) : b.before a = false := by
  simp only [Prio.before, or_eq_false_iff, or_eq_true, and_eq_true,
    and_eq_false_iff, decide_eq_false_iff_not, decide_eq_true_eq, beq_eq_false_iff_ne,
    beq_iff_eq, ne_eq] at *
  omega

lemma before_irrefl (a : Prio) : a.before a = false := by
  simp [Prio.before]

lemma scheduleScan_mem (prio : ThreadId -> Prio) (found : ThreadId) (rest : WaitQueue) :
    scheduleScan prio found rest ∈ found :: rest := by
  induction rest generalizing found with
  | nil => simp [scheduleScan]
  | cons next rest ih =>
    simp only [scheduleScan]
    split
    next => exact mem_cons_of_mem found (ih next)
    rcases mem_cons.mp (ih found) with same | later
    · simp [same]
    · exact mem_cons_of_mem found (mem_cons_of_mem next later)

lemma scheduleScan_first (prio : ThreadId -> Prio) (found : ThreadId) (rest : WaitQueue) :
    ∀ t ∈ found :: rest, (prio t).before (prio (scheduleScan prio found rest)) = false := by
  induction rest generalizing found with
  | nil => simp [scheduleScan, before_irrefl]
  | cons next rest ih =>
    intro t member
    simp only [scheduleScan]
    cases less : (prio next).before (prio found) with
    | true =>
      have first := ih next
      simp only [if_true]
      rcases mem_cons.mp member with rfl | later
      · exact before_trans (before_asymm less) (first next mem_cons_self)
      · exact first t later
    | false =>
      have first := ih found
      simp only [false_eq_true, if_false]
      rcases mem_cons.mp member with rfl | later
      · exact first t mem_cons_self
      · rcases mem_cons.mp later with rfl | later
        · exact before_trans less (first found mem_cons_self)
        · exact first t (mem_cons_of_mem found later)

lemma scheduleFound_prescribed (protocol : Protocol) (prio : ThreadId -> Prio) (it : ThreadId)
    (rest : WaitQueue) :
    Prescribed protocol prio (it :: rest) (scheduleFound protocol prio it rest) := by
  unfold Prescribed scheduleFound
  split
  · exact getLast?_eq_some_getLast (cons_ne_nil it rest)
  · exact ⟨scheduleScan_mem prio it rest, scheduleScan_first prio it rest⟩

variable {protocol : Protocol} {prio : ThreadId -> Prio} {queue : WaitQueue} {found : ThreadId}

lemma Prescribed.mem (choice : Prescribed protocol prio queue found) : found ∈ queue := by
  unfold Prescribed at choice
  split at choice
  · exact mem_of_getLast? choice
  · exact choice.1

lemma schedule_eq_none :
    schedule protocol prio queue = none ↔ queue = [] := by
  cases queue <;> simp [schedule]

section

variable {left : WaitQueue} (chosen : schedule protocol prio queue = some (found, left))

include chosen

lemma schedule_some :
    Prescribed protocol prio queue found ∧ left = queue.erase found := by
  cases queue with
  | nil => simp [schedule] at chosen
  | cons it rest =>
    simp only [schedule, Option.some.injEq, Prod.mk.injEq] at chosen
    obtain ⟨rfl, rfl⟩ := chosen
    exact ⟨scheduleFound_prescribed protocol prio it rest, rfl⟩

lemma schedule_perm :
    queue.Perm (found :: left) := by
  obtain ⟨choice, rfl⟩ := schedule_some chosen
  exact perm_cons_erase choice.mem

end

lemma ThreadId.ext_id {t u : ThreadId} (same : t.id = u.id) : t = u := by
  cases t
  cases u
  simpa using same

lemma length_lt_of_nodup {threads : List ThreadId} (nodup : threads.Nodup) :
    threads.length < 2 ^ 31 := by
  have distinct : (threads.map ThreadId.id).Nodup :=
    nodup.map fun _ _ same => ThreadId.ext_id same
  have inside : (threads.map ThreadId.id).toFinset ⊆ Finset.Ico 1 (2 ^ 31) := by
    intro id member
    obtain ⟨t, _, rfl⟩ := mem_map.mp (mem_toFinset.mp member)
    exact Finset.mem_Ico.mpr ⟨t.pos, t.small⟩
  have count := Finset.card_le_card inside
  rw [toFinset_card_of_nodup distinct, length_map, Nat.card_Ico] at count
  omega

end EmuCore.Lv2
