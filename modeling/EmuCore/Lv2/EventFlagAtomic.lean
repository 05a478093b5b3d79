import EmuCore.Lv2.EventFlagSet

namespace EmuCore.Lv2.EventFlag

open List

lemma afterRounds_congr {list : List Waiter} {bitptn : Pattern} (snapshots : List Pattern)
    {gpr3 other : ThreadId -> Bool} {t : ThreadId} (same : gpr3 t = other t) :
    afterRounds list bitptn snapshots gpr3 t = afterRounds list bitptn snapshots other t := by
  induction snapshots generalizing gpr3 other with
  | nil => exact same
  | cons pattern later ih => exact ih (by simp only [judge, same])

variable {w : Waiter}

lemma sequential_refuses {list : List Waiter} {v : Pattern} (member : w ∈ (sequential list v).refused) :
    w.refuses (sequential list v).pattern = true := by
  induction list generalizing v with
  | nil => cases member
  | cons u rest ih =>
    cases passed : checkPattern v u.bitptn u.mode with
    | some next =>
      by_cases zero : next = 0
      · simp [sequential, passed, zero] at member
      · simp only [sequential, passed, zero, if_false] at member ⊢
        exact ih member
    | none =>
      simp only [sequential, passed] at member ⊢
      rcases mem_cons.mp member with rfl | later
      · exact Waiter.refuses_mono (sequential_below rest v) (checkPattern_none.mp passed)
      · exact ih later

namespace Flag

variable (f : Flag) (bitptn : Pattern) (updates : List (List LockFree))

def order : List Waiter := protocolOrder f.protocol f.sq

def lastPass : Verdicts :=
  sequential f.order ((setOutcome f bitptn updates).last ||| bitptn)

lemma spec : LoopSpec f.order bitptn f.regs.gpr3 (setOutcome f bitptn updates) :=
  setLoop_spec f.distinct f.refused updates

lemma order_distinct : (f.order.map Waiter.thread).Nodup :=
  ((protocolOrder_perm f.protocol f.sq).map Waiter.thread).nodup_iff.mpr f.distinct

lemma mem_iff (w : Waiter) : w ∈ f.sq ↔ w ∈ (f.lastPass bitptn updates).accepted ∨
    w ∈ (f.lastPass bitptn updates).refused ∨ w ∈ (f.lastPass bitptn updates).unreached := by
  have parts := sequential_perm f.order ((setOutcome f bitptn updates).last ||| bitptn)
  rw [← (protocolOrder_perm f.protocol f.sq).mem_iff, ← or_assoc, ← mem_append,
    ← mem_append]
  exact parts.mem_iff

lemma verdicts_distinct : (((f.lastPass bitptn updates).accepted ++
    (f.lastPass bitptn updates).refused ++ (f.lastPass bitptn updates).unreached).map
      Waiter.thread).Nodup :=
  ((sequential_perm f.order _).map Waiter.thread).nodup_iff.mp f.order_distinct

lemma gpr3_accepted (member : w ∈ (f.lastPass bitptn updates).accepted) :
    (setOutcome f bitptn updates).regs.gpr3 w.thread = true := by
  rw [(f.spec bitptn updates).gpr3]
  exact if_pos (mem_map_of_mem member)

lemma gpr3_refused (member : w ∈ (f.lastPass bitptn updates).refused) :
    (setOutcome f bitptn updates).regs.gpr3 w.thread = false := by
  have distinct := f.verdicts_distinct bitptn updates
  rw [append_assoc, map_append] at distinct
  have apart : w.thread ∉ (f.lastPass bitptn updates).accepted.map Waiter.thread := fun accepted =>
    disjoint_of_nodup_append distinct accepted
      (mem_map_of_mem (mem_append_left _ member))
  rw [(f.spec bitptn updates).gpr3]
  exact (if_neg apart).trans (if_pos (mem_map_of_mem member))

lemma gpr3_unreached (member : w ∈ (f.lastPass bitptn updates).unreached) :
    (setOutcome f bitptn updates).regs.gpr3 w.thread =
      afterRounds f.order bitptn (setOutcome f bitptn updates).earlier (fun _ => false) w.thread := by
  have distinct := f.verdicts_distinct bitptn updates
  rw [map_append] at distinct
  have apart := disjoint_of_nodup_append distinct
  have reached : w.thread ∉ ((f.lastPass bitptn updates).accepted ++
      (f.lastPass bitptn updates).refused).map Waiter.thread := fun reached =>
    apart reached (mem_map_of_mem member)
  rw [map_append, mem_append, not_or] at reached
  have queued : w ∈ f.sq := (f.mem_iff bitptn updates w).mpr (.inr (.inr member))
  rw [(f.spec bitptn updates).gpr3]
  refine ((if_neg reached.1).trans (if_neg reached.2)).trans ?_
  exact afterRounds_congr _ (f.blank w queued)

lemma unreached_not_accepted (member : w ∈ (f.lastPass bitptn updates).unreached) :
    w ∉ (f.lastPass bitptn updates).accepted := by
  have distinct := (f.verdicts_distinct bitptn updates).of_map
  rw [append_assoc] at distinct
  exact fun accepted => disjoint_of_nodup_append distinct accepted
    (mem_append_right _ member)

lemma count_zero (none : (setOutcome f bitptn updates).count = 0) :
    (f.lastPass bitptn updates).accepted = [] ∧ (f.lastPass bitptn updates).unreached = [] := by
  have empty := eq_nil_of_length_eq_zero ((f.spec bitptn updates).count.symm.trans none)
  refine ⟨empty, ?_⟩
  by_contra some
  exact (sequential_unreached some).1 empty

lemma mem_removed (some : (setOutcome f bitptn updates).count ≠ 0) (w : Waiter) :
    w ∈ removed f bitptn updates ↔
      w ∈ f.sq ∧ (setOutcome f bitptn updates).regs.gpr3 w.thread = true := by
  simp [removed, some]

lemma mem_remaining (some : (setOutcome f bitptn updates).count ≠ 0) (w : Waiter) :
    w ∈ remaining f bitptn updates ↔
      w ∈ f.sq ∧ (setOutcome f bitptn updates).regs.gpr3 w.thread = false := by
  simp [remaining, some]

lemma gpr3_iff (clean : ∀ w ∈ (f.lastPass bitptn updates).unreached,
      afterRounds f.order bitptn (setOutcome f bitptn updates).earlier (fun _ => false) w.thread = false) (queued : w ∈ f.sq) :
    (setOutcome f bitptn updates).regs.gpr3 w.thread = true ↔
      w ∈ (f.lastPass bitptn updates).accepted := by
  rcases (f.mem_iff bitptn updates w).mp queued with accepted | refused | unreached
  · simp [accepted, f.gpr3_accepted bitptn updates accepted]
  · have verdict := f.gpr3_refused bitptn updates refused
    refine ⟨fun ok => by simp [verdict] at ok, fun accepted => ?_⟩
    exact f.gpr3_accepted bitptn updates accepted
  · have verdict := (f.gpr3_unreached bitptn updates unreached).trans (clean w unreached)
    refine ⟨fun ok => by simp [verdict] at ok, fun accepted => ?_⟩
    exact absurd accepted (f.unreached_not_accepted bitptn updates unreached)

end Flag

def waiter (n : Nat) (bitptn : Pattern) (mode : Mode) : Waiter :=
  ⟨ThreadId.nth n, 0, bitptn, mode, by decide⟩

-- Three waiters behind the pattern 0b0010, the oldest one last.
def threeWaiters : Flag where
  protocol := .fifo
  single := false
  pattern := 0b0010
  sq := [waiter 2 0b1000 ⟨.waitOr, .none⟩, waiter 1 0b0001 ⟨.waitOr, .clearAll⟩,
    waiter 0 0b0011 ⟨.waitAnd, .clear⟩]
  regs := ⟨fun _ => false, fun _ => 0, fun _ => false⟩
  distinct := by decide
  refused := by decide
  blank := by decide

def create (protocol : Protocol) (single : Bool) (init : Pattern) : Flag where
  protocol := protocol
  single := single
  pattern := init
  sq := []
  regs := ⟨fun _ => false, fun _ => 0, fun _ => false⟩
  distinct := nodup_nil
  refused := fun _ member => by cases member
  blank := fun _ member => by cases member

namespace Flag

variable (f : Flag)

-- sys_event_flag_trywait, sys_event_flag_clear and the fast path of sys_event_flag_wait.
def lockFree (update : LockFree) : Flag :=
  { f with
    pattern := update.apply f.pattern
    refused := fun w member => Waiter.refuses_mono (apply_below f.pattern update) (f.refused w member) }

-- sys_event_flag_wait under the mutex. A thread that waits is not running.
def wait (w : Waiter) (running : w.thread ∉ f.sq.map Waiter.thread) : Flag :=
  match checked : checkPattern f.pattern w.bitptn w.mode with
  | some _ => f.lockFree (.wait w.bitptn w.mode)
  | none =>
    if f.single ∧ f.sq ≠ [] then f
    else
      { f with
        sq := w :: f.sq
        regs := { f.regs with gpr3 := Function.update f.regs.gpr3 w.thread false }
        distinct := nodup_cons.mpr ⟨running, f.distinct⟩
        refused := fun u member => (mem_cons.mp member).elim
          (fun same => same ▸ checkPattern_none.mp checked) (f.refused u)
        blank := fun u member => by
          by_cases same : u.thread = w.thread
          · simp [same]
          · have older : u ∈ f.sq := (mem_cons.mp member).resolve_left fun eq => same (by rw [eq])
            simpa [same] using f.blank u older }

def timeout (w : Waiter) : Flag :=
  { f with
    sq := f.sq.erase w
    distinct := (erase_sublist.map Waiter.thread).nodup f.distinct
    refused := fun u member => f.refused u (mem_of_mem_erase member)
    blank := fun u member => f.blank u (mem_of_mem_erase member) }

def cancel : Flag :=
  { f with
    sq := []
    distinct := nodup_nil
    refused := fun _ member => by cases member
    blank := fun _ member => by cases member }

variable (bitptn : Pattern) (updates : List (List LockFree))

lemma remaining_sublist : (remaining f bitptn updates).Sublist f.sq := by
  simp only [remaining]
  split
  · exact .refl _
  · exact filter_sublist

lemma remaining_blank {w : Waiter} (member : w ∈ remaining f bitptn updates) :
    (setOutcome f bitptn updates).regs.gpr3 w.thread = false := by
  by_cases none : (setOutcome f bitptn updates).count = 0
  · obtain ⟨empty, all⟩ := f.count_zero bitptn updates none
    have queued : w ∈ f.sq := (f.remaining_sublist bitptn updates).subset member
    have refused : w ∈ (f.lastPass bitptn updates).refused := by
      simpa [empty, all] using (f.mem_iff bitptn updates w).mp queued
    exact f.gpr3_refused bitptn updates refused
  · exact ((f.mem_remaining bitptn updates none w).mp member).2

lemma remaining_refused {w : Waiter} (member : w ∈ remaining f bitptn updates) :
    w.refuses (setOutcome f bitptn updates).pattern = true := by
  have queued : w ∈ f.sq := (f.remaining_sublist bitptn updates).subset member
  have verdict := f.remaining_blank bitptn updates member
  refine Waiter.refuses_mono (f.spec bitptn updates).below ?_
  rcases (f.mem_iff bitptn updates w).mp queued with accepted | refused | unreached
  · rw [f.gpr3_accepted bitptn updates accepted] at verdict
    cases verdict
  · exact sequential_refuses refused
  have stopped := (sequential_unreached (ne_nil_of_mem unreached)).2
  change w.refuses (f.lastPass bitptn updates).pattern = true
  rw [show (f.lastPass bitptn updates).pattern = 0 from stopped]
  exact Waiter.refuses_mono (fun i set => by simp at set) (f.refused w queued)

-- sys_event_flag_set does nothing if all the bits are set already.
def set : Flag :=
  if f.pattern &&& bitptn = bitptn then f
  else
    { f with
      pattern := (setOutcome f bitptn updates).pattern
      sq := remaining f bitptn updates
      regs := (setOutcome f bitptn updates).regs
      distinct := ((f.remaining_sublist bitptn updates).map Waiter.thread).nodup f.distinct
      refused := fun _ member => f.remaining_refused bitptn updates member
      blank := fun _ member => f.remaining_blank bitptn updates member }

end Flag

-- Whatever updates run beside the call, a thread is woken or stays queued, and then the pattern refuses it.
theorem set_loses_no_waiter (f : Flag) (bitptn : Pattern) (updates : List (List LockFree)) :
    removed f bitptn updates ++ remaining f bitptn updates ~ f.sq ∧
      ∀ w ∈ remaining f bitptn updates, w.refuses (setOutcome f bitptn updates).pattern = true := by
  refine ⟨?_, fun w left => f.remaining_refused bitptn updates left⟩
  rw [removed, remaining]
  split
  · exact .refl _
  · exact filter_append_perm ..

end EmuCore.Lv2.EventFlag
