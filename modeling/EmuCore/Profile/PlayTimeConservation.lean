import EmuCore.Profile.PlayTimeCache

namespace EmuCore.Profile

open EmuCore.Util List Function Option

variable {strings : Strings} {n : Nat}

def total (strings : Strings) (key : Bytes) (shared : Shared) : Int := shared.cloud key + pending strings key shared

lemma clean_pending (shared : Shared) : Clean strings (readEntries strings shared.preference) :=
  clean_readEntries shared.preference

lemma total_written {entries : List PlayerPlayTimeDelta} (clean : Clean strings entries) (key : Bytes)
    (shared : Shared) :
    total strings key { shared with preference := writeEntries strings entries } =
      shared.cloud key + duration strings key entries := by
  rw [total, pending_written clean]

lemma total_drained (key : Bytes) (shared : Shared) :
    total strings key { shared with preference := [] } = shared.cloud key := Int.add_zero _

lemma total_uploaded (key : Bytes) (shared : Shared) (entries : List PlayerPlayTimeDelta) :
    total strings key { shared with cloud := recordPlayTimeBatch strings entries shared.cloud } =
      total strings key shared + duration strings key entries := by
  simp only [total, recordPlayTimeBatch, pending]
  omega

lemma recorded_none (key : Bytes) : recorded strings key none = 0 := rfl

variable {entry : PlayerPlayTimeDelta}

lemma recorded_invalid (bad : isValid strings entry = false) (key : Bytes) :
    recorded strings key (some entry) = 0 := by
  simp [recorded, bad]

lemma recorded_valid (ok : isValid strings entry = true) (key : Bytes) :
    recorded strings key (some entry) = if buildCacheKey strings entry = key then entry.durationMs else 0 := by
  simp [recorded, ok]

def Accounted (strings : Strings) (call : Call) (base : Bytes -> Int) (shared : Shared)
    (taken : List PlayerPlayTimeDelta) : Prop :=
  ∀ key, total strings key shared + duration strings key taken = base key + recorded strings key call

def Balanced (strings : Strings) (call : Call) (base : Bytes -> Int) (shared : Shared) : Pc -> Prop
  | .start => ∀ key, total strings key shared = base key
  | .adding entry entries => (∀ key, total strings key shared = base key) ∧ call = some entry ∧
      isValid strings entry = true ∧ entries = readEntries strings shared.preference
  | .drained entries => Accounted strings call base shared [] ∧ entries = readEntries strings shared.preference
  | .uploading entries => Accounted strings call base shared entries ∧ ∀ entry ∈ entries, isValid strings entry = true
  | .restoring entries => Accounted strings call base shared entries ∧ ∀ entry ∈ entries, isValid strings entry = true
  | .merging entries current => Accounted strings call base shared entries ∧
      (∀ entry ∈ entries, isValid strings entry = true) ∧ current = readEntries strings shared.preference
  | _ => Accounted strings call base shared []

variable {shared next : Shared} {call : Call} {pc : Pc} {choice : Bool}

lemma balanced_start {base : Bytes -> Int} (same : ∀ key, total strings key shared = base key)
    (move : stepCall strings call choice shared .start = some (next, pc)) : Balanced strings call base next pc := by
  have idle {call : Call} (nothing : ∀ key, recorded strings key call = 0) :
      Balanced strings call base shared .syncing := fun key => by rw [nothing, same, duration_nil]
  cases call with
  | none =>
    cases move
    exact idle recorded_none
  | some entry =>
    rw [stepCall] at move
    split at move
    next ok =>
      cases move
      exact ⟨same, rfl, ok, rfl⟩
    next bad =>
      cases move
      exact idle (recorded_invalid (Bool.eq_false_iff.mpr bad))

lemma balanced_stepCall {base : Bytes -> Int} {after : Pc} (balanced : Balanced strings call base shared pc)
    (move : stepCall strings call choice shared pc = some (next, after)) : Balanced strings call base next after := by
  cases pc with
  | start => exact balanced_start balanced move
  | adding entry entries =>
    obtain ⟨same, rfl, ok, rfl⟩ := balanced
    cases move
    intro key
    have before := same key
    rw [total_written ((clean_pending shared).addEntry ok), duration_addEntry, recorded_valid ok, duration_nil]
    rw [total, pending] at before
    omega
  | syncing =>
    cases move
    cases choice <;> exact balanced
  | draining =>
    cases move
    by_cases empty : readEntries strings shared.preference = []
    · rw [if_pos empty]
      exact balanced
    · rw [if_neg empty]
      exact ⟨balanced, rfl⟩
  | drained entries =>
    obtain ⟨accounted, rfl⟩ := balanced
    cases move
    refine ⟨fun key => ?_, (clean_pending shared).valid⟩
    have before := accounted key
    rw [total_drained]
    rw [total, pending, duration_nil] at before
    omega
  | uploading entries =>
    obtain ⟨accounted, valid⟩ := balanced
    cases choice with
    | true =>
      cases move
      intro key
      rw [total_uploaded, accounted, duration_nil, Int.add_zero]
    | false =>
      have all : entries.filter (isValid strings) = entries := filter_eq_self.mpr valid
      cases move
      rw [all]
      exact ⟨accounted, valid⟩
  | restoring entries =>
    obtain ⟨accounted, valid⟩ := balanced
    cases move
    by_cases empty : entries = []
    · rw [if_pos empty]
      subst empty
      exact accounted
    · rw [if_neg empty]
      exact ⟨accounted, valid, rfl⟩
  | merging entries current =>
    obtain ⟨accounted, valid, rfl⟩ := balanced
    cases move
    intro key
    have before := accounted key
    rw [total_written (clean_addAll valid (clean_pending shared)), duration_addAll, duration_nil]
    rw [total, pending] at before
    omega
  | finished => cases move

lemma step_elim {calls : Fin n -> Call} {state next : State n} {action : Fin n × Bool}
    (move : step strings calls state action = some next) : ∃ after,
      stepCall strings (calls action.1) action.2 state.shared (state.pcs action.1) = some (next.shared, after) ∧
      next.pcs = update state.pcs action.1 after := by
  obtain ⟨⟨shared, after⟩, taken, rfl⟩ := map_eq_some_iff.mp move
  exact ⟨after, taken, rfl⟩

variable {calls : Fin n -> Call} {initial : Shared}

lemma no_calls {calls : Fin 0 -> Call} {state : State 0} (reach : (system strings calls initial).Reachable state) :
    state.shared = initial :=
  reach.invariant (P := fun state => state.shared = initial) (fun _ start => start ▸ rfl)
    fun _ action _ _ _ => action.1.elim0

lemma balanced_reachable {calls : Fin 1 -> Call} {state : State 1}
    (reach : (system strings calls initial).Reachable state) :
    Balanced strings (calls 0) (fun key => total strings key initial) state.shared (state.pcs 0) := by
  refine reach.invariant (P := fun state => Balanced strings (calls 0) _ state.shared (state.pcs 0))
    (fun state start => ?_) fun state action next balanced move => ?_
  · cases start
    exact fun _ => rfl
  obtain ⟨after, taken, pcs⟩ := step_elim move
  have only : action.1 = 0 := Subsingleton.elim _ _
  rw [only] at taken pcs
  rw [pcs, update_self]
  exact balanced_stepCall balanced taken

def Idle : Pc -> Prop
  | .start | .syncing | .draining | .finished => True
  | _ => False

lemma idle_stepCall {after : Pc} (empty : readEntries strings shared.preference = [])
    (nothing : ∀ entry ∈ call, isValid strings entry = false) (idle : Idle pc)
    (move : stepCall strings call choice shared pc = some (next, after)) :
    next = shared ∧ Idle after := by
  cases pc with
  | start =>
    cases call with
    | none =>
      cases move
      exact ⟨rfl, trivial⟩
    | some entry =>
      rw [stepCall, if_neg (by simp [nothing entry rfl])] at move
      cases move
      exact ⟨rfl, trivial⟩
  | syncing =>
    cases move
    cases choice <;> exact ⟨rfl, trivial⟩
  | draining =>
    cases move
    rw [if_pos empty]
    exact ⟨rfl, trivial⟩
  | finished => cases move
  | adding entry entries | drained entries | uploading entries | restoring entries => exact idle.elim
  | merging entries current => exact idle.elim

lemma idle_reachable (empty : readEntries strings initial.preference = [])
    (nothing : ∀ i, ∀ entry ∈ calls i, isValid strings entry = false) {state : State n}
    (reach : (system strings calls initial).Reachable state) : state.shared = initial ∧ ∀ i, Idle (state.pcs i) := by
  refine reach.invariant (P := fun state => state.shared = initial ∧ ∀ i, Idle (state.pcs i))
    (fun _ start => start ▸ ⟨rfl, fun _ => trivial⟩) fun state action next ⟨same, idle⟩ move => ?_
  obtain ⟨after, taken, pcs⟩ := step_elim move
  obtain ⟨kept, idleAfter⟩ := idle_stepCall (same ▸ empty) (nothing action.1) (idle action.1) taken
  refine ⟨kept.trans same, fun i => ?_⟩
  rw [pcs]
  by_cases mine : i = action.1
  · rw [mine, update_self]
    exact idleAfter
  · rw [update_of_ne mine]
    exact idle i

lemma recorded_nothing (nothing : ∀ entry ∈ call, isValid strings entry = false) (key : Bytes) :
    recorded strings key call = 0 := by
  cases call with
  | none => rfl
  | some entry => exact recorded_invalid (nothing entry rfl) key

variable {pcs : Fin n -> Pc}

lemma reach_step (reach : (system strings calls initial).Reachable ⟨shared, pcs⟩) (i : Fin n) {before : Pc}
    (here : pcs i = before) (choice : Bool) (next : Shared) (after : Pc)
    (taken : stepCall strings (calls i) choice shared before = some (next, after)) :
    (system strings calls initial).Reachable ⟨next, update pcs i after⟩ := by
  refine reach.step (a := (i, choice)) ?_
  simp only [system, step, here, taken, map_some]

lemma update_rest {i : Fin n} {rest : List (Fin n)} (pcs : Fin n -> Pc) (after : Pc) :
    (fun j => if j ∈ rest then after else update pcs i after j) =
      fun j => if j ∈ i :: rest then after else pcs j := by
  funext j
  by_cases mine : j = i
  · subst mine
    simp
  · simp [mine]

lemma others_at {i : Fin n} {rest : List (Fin n)} (fresh : i ∉ rest) (waiting : ∀ j ∈ i :: rest, pcs j = pc)
    (after : Pc) : ∀ j ∈ rest, update pcs i after j = pc := by
  intro j member
  have other : j ≠ i := fun same => fresh (same ▸ member)
  rw [update_of_ne other]
  exact waiting j (mem_cons_of_mem _ member)

lemma reach_recorded_one (reach : (system strings calls initial).Reachable ⟨shared, pcs⟩) {i : Fin n}
    (here : pcs i = .start) :
    ∃ next, (system strings calls initial).Reachable ⟨next, update pcs i .syncing⟩ ∧
      next.cloud = shared.cloud ∧
      ∀ key, pending strings key next = pending strings key shared + recorded strings key (calls i) := by
  by_cases records : ∃ entry, calls i = some entry ∧ isValid strings entry = true
  · obtain ⟨entry, call, ok⟩ := records
    have read := reach_step reach i here true shared (.adding entry (readEntries strings shared.preference))
      (by rw [call, stepCall, if_pos ok])
    have written := reach_step read i (update_self _ _ _) true _ .syncing rfl
    rw [update_idem] at written
    refine ⟨_, written, rfl, fun key => ?_⟩
    rw [pending_written ((clean_pending _).addEntry ok), duration_addEntry, call, recorded_valid ok]
    rfl
  · have nothing : ∀ entry ∈ calls i, isValid strings entry = false := fun entry member =>
      Bool.eq_false_iff.mpr fun ok => records ⟨entry, member, ok⟩
    refine ⟨shared, reach_step reach i here true shared .syncing ?_, rfl, fun key => ?_⟩
    · cases call : calls i with
      | none => rfl
      | some entry => rw [stepCall, if_neg (by simp [nothing entry call])]
    · rw [recorded_nothing nothing, Int.add_zero]

section

variable (list : List (Fin n)) (distinct : list.Nodup) (reach : (system strings calls initial).Reachable ⟨shared, pcs⟩)

include list distinct reach

lemma reach_recorded (starting : ∀ i ∈ list, pcs i = .start) :
    ∃ next, (system strings calls initial).Reachable ⟨next, fun i => if i ∈ list then .syncing else pcs i⟩ ∧
      next.cloud = shared.cloud ∧ ∀ key, pending strings key next =
        pending strings key shared + (list.map fun i => recorded strings key (calls i)).sum := by
  induction list generalizing shared pcs with
  | nil => exact ⟨shared, by simpa using reach, rfl, by simp⟩
  | cons i rest ih =>
    obtain ⟨fresh, distinct⟩ := nodup_cons.mp distinct
    obtain ⟨next, reached, cloud, sum⟩ := reach_recorded_one reach (starting i mem_cons_self)
    obtain ⟨last, ending, cloudLast, sumLast⟩ := ih distinct reached (others_at fresh starting _)
    rw [update_rest] at ending
    refine ⟨last, ending, cloudLast.trans cloud, fun key => ?_⟩
    rw [sumLast, sum, map_cons, sum_cons, Int.add_assoc]

lemma reach_finished (waiting : ∀ i ∈ list, pcs i = .syncing) :
    (system strings calls initial).Reachable ⟨shared, fun i => if i ∈ list then .finished else pcs i⟩ := by
  induction list generalizing pcs with
  | nil => simpa using reach
  | cons i rest ih =>
    obtain ⟨fresh, distinct⟩ := nodup_cons.mp distinct
    have ended := reach_step reach i (waiting i mem_cons_self) false shared .finished rfl
    have ending := ih distinct ended (others_at fresh waiting _)
    rwa [update_rest] at ending

end

lemma reach_doubled {first second : Fin n} (differ : first ≠ second)
    (reach : (system strings calls initial).Reachable ⟨shared, pcs⟩) (one : pcs first = .syncing)
    (two : pcs second = .syncing) (rest : ∀ i, i ≠ first -> i ≠ second -> pcs i = .finished)
    (present : readEntries strings shared.preference ≠ []) :
    ∃ final, (system strings calls initial).Reachable final ∧ (∀ i, final.pcs i = .finished) ∧
      ∀ key, total strings key final.shared = shared.cloud key + 2 * pending strings key shared := by
  let entries := readEntries strings shared.preference
  have atFirst (pcs : Fin n -> Pc) (a b : Pc) : update (update pcs first a) second b first = a := by
    rw [update_of_ne differ, update_self]
  have atSecond (pcs : Fin n -> Pc) (a b : Pc) : update (update pcs second a) first b second = a := by
    rw [update_of_ne differ.symm, update_self]
  have read (call : Call) : stepCall strings call true shared .draining = some (shared, .drained entries) := by
    simp only [stepCall, if_neg present, entries]
  have firstSigned := reach_step reach first one true shared .draining rfl
  have bothSigned := reach_step firstSigned second ((update_of_ne differ.symm _ _).trans two) true shared
    .draining rfl
  have firstRead := reach_step bothSigned first (atFirst _ _ _) true shared (.drained entries) (read _)
  have bothRead := reach_step firstRead second (atSecond _ _ _) true shared (.drained entries) (read _)
  have firstRemoved := reach_step bothRead first (atFirst _ _ _) true { shared with preference := [] }
    (.uploading entries) rfl
  have bothRemoved := reach_step firstRemoved second (atSecond _ _ _) true { shared with preference := [] }
    (.uploading entries) rfl
  have firstDone := reach_step bothRemoved first (atFirst _ _ _) true _ .finished rfl
  have bothDone := reach_step firstDone second (atSecond _ _ _) true _ .finished rfl
  refine ⟨_, bothDone, fun i => ?_, fun key => ?_⟩
  · by_cases isSecond : i = second
    · rw [isSecond]
      exact update_self _ _ _
    by_cases isFirst : i = first
    · rw [isFirst]
      exact atFirst _ _ _
    · simp only [update_of_ne isSecond, update_of_ne isFirst]
      exact rest i isFirst isSecond
  · rw [total_uploaded, total_uploaded, total_drained]
    simp only [pending, entries]
    omega

lemma recorded_nonneg (key : Bytes) (call : Call) : 0 ≤ recorded strings key call := by
  cases call with
  | none => exact le_rfl
  | some entry =>
    rw [recorded, elim_some]
    split
    next ok =>
      simp only [isValid, Bool.and_eq_true, decide_eq_true_eq] at ok
      exact ok.1.2.le
    next => exact le_rfl

lemma duration_pos {rest : List PlayerPlayTimeDelta} (clean : Clean strings (entry :: rest)) :
    0 < duration strings (buildCacheKey strings entry) (entry :: rest) := by
  have valid := clean.valid entry mem_cons_self
  have others : 0 ≤ duration strings (buildCacheKey strings entry) rest :=
    duration_nonneg ⟨(nodup_cons.mp clean.distinct).2, fun other member =>
      clean.valid other (mem_cons_of_mem _ member)⟩ _
  simp only [isValid, Bool.and_eq_true, decide_eq_true_eq] at valid
  rw [duration_cons, if_pos rfl]
  omega

lemma some_duration
    (busy : ¬(readEntries strings initial.preference = [] ∧ ∀ i, ∀ entry ∈ calls i, isValid strings entry = false)) :
    ∃ key, 0 < pending strings key initial + ∑ i, recorded strings key (calls i) := by
  have recordedNonneg (key : Bytes) : 0 ≤ ∑ i, recorded strings key (calls i) :=
    Finset.sum_nonneg fun i _ => recorded_nonneg key (calls i)
  by_cases empty : readEntries strings initial.preference = []
  · have records : ∃ i, ∃ entry ∈ calls i, isValid strings entry = true := by
      by_contra none
      exact busy ⟨empty, fun i entry member => Bool.eq_false_iff.mpr fun ok => none ⟨i, entry, member, ok⟩⟩
    obtain ⟨i, entry, call, ok⟩ := records
    refine ⟨buildCacheKey strings entry, ?_⟩
    have mine : 0 < recorded strings (buildCacheKey strings entry) (calls i) := by
      rw [mem_def.mp call, recorded_valid ok, if_pos rfl]
      simp only [isValid, Bool.and_eq_true, decide_eq_true_eq] at ok
      exact ok.2
    have among : recorded strings (buildCacheKey strings entry) (calls i) ≤
        ∑ j, recorded strings (buildCacheKey strings entry) (calls j) :=
      Finset.single_le_sum (fun j _ => recorded_nonneg _ (calls j)) (Finset.mem_univ i)
    have before : 0 ≤ pending strings (buildCacheKey strings entry) initial := duration_nonneg (clean_pending initial) _
    omega
  · obtain ⟨entry, rest, read⟩ := exists_cons_of_ne_nil empty
    refine ⟨buildCacheKey strings entry, ?_⟩
    have here : 0 < pending strings (buildCacheKey strings entry) initial := by
      rw [pending, read]
      exact duration_pos (read ▸ clean_pending initial)
    have later := recordedNonneg (buildCacheKey strings entry)
    omega

lemma exists_doubled (several : 1 < n) {key : Bytes}
    (some : 0 < pending strings key initial + ∑ i, recorded strings key (calls i)) :
    ∃ final, (system strings calls initial).Reachable final ∧ (∀ i, final.pcs i = .finished) ∧
      total strings key final.shared =
        initial.cloud key + 2 * (pending strings key initial + ∑ i, recorded strings key (calls i)) := by
  let first : Fin n := ⟨0, by omega⟩
  let second : Fin n := ⟨1, several⟩
  have differ : first ≠ second := fun same => absurd (congrArg Fin.val same) Nat.zero_ne_one
  have start : (system strings calls initial).Reachable ⟨initial, fun _ => .start⟩ := .init rfl
  obtain ⟨shared, recordedAll, cloud, sum⟩ := reach_recorded (List.finRange n) (nodup_finRange n) start
    fun _ _ => rfl
  have idle := reach_finished ((List.finRange n).filter fun i => i ≠ first ∧ i ≠ second)
    ((nodup_finRange n).filter _) recordedAll fun i _ => if_pos (mem_finRange i)
  have pendingAll : pending strings key shared = pending strings key initial + ∑ i, recorded strings key (calls i) := by
    rw [sum, Fin.sum_univ_def]
  have present : readEntries strings shared.preference ≠ [] := by
    intro empty
    rw [pending, empty, duration_nil] at pendingAll
    omega
  obtain ⟨final, reach, finished, doubled⟩ := reach_doubled differ idle (by simp) (by simp)
    (fun i notFirst notSecond => by simp [notFirst, notSecond]) present
  exact ⟨final, reach, finished, by rw [doubled, cloud, pendingAll]⟩

theorem play_time_conserved_iff (strings : Strings) (calls : Fin n -> Call) (initial : Shared) :
    (∀ final, (system strings calls initial).Reachable final -> (∀ i, final.pcs i = .finished) ->
      Conserved strings calls initial final.shared) ↔
    n ≤ 1 ∨ (readEntries strings initial.preference = [] ∧
      ∀ i, ∀ entry ∈ calls i, isValid strings entry = false) := by
  constructor
  · intro conserved
    by_contra neither
    rw [not_or, not_le] at neither
    obtain ⟨several, busy⟩ := neither
    obtain ⟨key, some⟩ := some_duration busy
    obtain ⟨final, reach, finished, doubled⟩ := exists_doubled several some
    have once := conserved final reach finished key
    rw [total] at doubled
    omega
  · rintro (few | ⟨empty, nothing⟩) final reach finished key
    · obtain rfl | rfl := Nat.le_one_iff_eq_zero_or_eq_one.mp few
      · rw [no_calls reach, Fin.sum_univ_zero, Int.add_zero]
      have balanced := balanced_reachable reach
      rw [finished 0] at balanced
      have alone := balanced key
      simp only [total, duration_nil] at alone
      rw [Fin.sum_univ_one]
      omega
    · rw [(idle_reachable empty nothing reach).1, Finset.sum_eq_zero fun i _ => recorded_nothing (nothing i) key,
        Int.add_zero]

def plainStrings : Strings := ⟨List.isEmpty, id⟩

def session : PlayerPlayTimeDelta := ⟨[66], [71], none, 1000, 1, 0⟩

def sessionCalls : Fin 2 -> Call := ![some session, none]

theorem session_counted_twice :
    ((system plainStrings sessionCalls ⟨[], fun _ => 0⟩).run ⟨⟨[], fun _ => 0⟩, fun _ => .start⟩
      [(0, true), (0, true), (1, true), (0, true), (1, true), (0, true), (1, true), (0, true), (1, true),
        (0, true), (1, true)]).map (fun final =>
          (final.pcs 0, final.pcs 1, final.shared.cloud [66], pending plainStrings [66] final.shared)) =
      some (.finished, .finished, 2000, 0) ∧
    ∑ i, recorded plainStrings [66] (sessionCalls i) = 1000 := by
  constructor
  · rfl
  · rfl

end EmuCore.Profile
