import EmuCore.Dmux.OutputQueue

namespace EmuCore.Dmux

open Placement OutputQueue List Option

abbrev AuSpan := Placed UInt8

-- Who uses the queue: the finished units that are not released, oldest first, and the unit that is being appended.
-- There is none between the end of a unit and the answer that the next one has room.
structure Client where
  queue : OutputQueue
  waiting : List AuSpan
  current : Option AuSpan

inductive Op
  | push (chunk : Chunk)
  | finish
  | prepare (auMaxSize : Nat)
  | release

variable {chunk : Chunk}

namespace Client

def fresh (queue : OutputQueue) : Client := ⟨queue, [], some ⟨queue.back, []⟩⟩

def units (c : Client) : List AuSpan := c.waiting ++ c.current.toList

def push (c : Client) (chunk : Chunk) (unit : AuSpan) : Client :=
  let result := c.queue.push chunk
  ⟨result.2, c.waiting,
    some (if result.1 = .pushed then ⟨unit.start, unit.values ++ chunk.bytes⟩ else unit)⟩

def prepare (c : Client) (auMaxSize : Nat) : Client :=
  let result := c.queue.prepareNextAu auMaxSize
  ⟨result.2, c.waiting, if result.1 then some ⟨result.2.back, []⟩ else none⟩

def step (c : Client) : Op -> Option Client
  | .push chunk => some (c.current.elim c (c.push chunk))
  | .finish => some (c.current.elim c fun unit => ⟨c.queue, c.waiting ++ [unit], none⟩)
  | .prepare auMaxSize => some (c.current.elim (c.prepare auMaxSize) fun _ => c)
  | .release =>
    match c.waiting with
    | [] => some c
    | unit :: rest => (c.queue.popFront unit.values.length).map fun queue => ⟨queue, rest, c.current⟩

def run (c : Client) (ops : List Op) : Option Client := ops.foldlM step c

structure Sound (c : Client) : Prop where
  front : ∀ unit ∈ c.units.head?, unit.values ≠ [] -> unit.start = c.queue.front
  apart : c.units.Pairwise Placed.Apart
  inside : ∀ unit ∈ c.units, unit.values ≠ [] -> c.queue.base ≤ unit.start ∧ unit.stop ≤ c.queue.stop
  held : ∀ unit ∈ c.units, unit.Held c.queue.memory

def Strands (c : Client) (chunk : Chunk) : Prop :=
  c.current.isSome ∧ c.waiting = [] ∧ c.queue.wrapPos ≠ c.queue.base ∧ chunk.bytes ≠ [] ∧
    (c.queue.push chunk).1 = .pushed

inductive Laid (q : OutputQueue) (waiting : List AuSpan) (current : List AuSpan) : Prop
  | straight (unwrapped : q.wrapPos = q.base) (stacked : Stacked q.front (waiting ++ current) q.back)
      (room : q.back ≤ q.stop)
  | wrapped (older newer : List AuSpan) (split : waiting = older ++ newer) (after : q.base < q.wrapPos)
      (room : q.wrapPos ≤ q.stop) (above : Stacked q.front older q.wrapPos)
      (below : Stacked q.base (newer ++ current) q.back) (order : q.back ≤ q.front)
      (first : older = [] -> ∀ unit ∈ (newer ++ current).head?, unit.values = [])

structure Inv (c : Client) : Prop where
  start : c.queue.base ≤ c.queue.front
  laid : Laid c.queue c.waiting c.current.toList
  ends : ∀ unit ∈ c.current, unit.stop = c.queue.back
  held : ∀ unit ∈ c.units, unit.Held c.queue.memory

lemma inv_fresh (base size : Nat) (fits : size < 2 ^ 32) (memory : Nat -> UInt8) :
    (fresh (.fresh base size fits memory)).Inv where
  start := le_rfl
  laid := .straight rfl ⟨fun some => absurd rfl some, rfl⟩ (Nat.le_add_right base size)
  ends := by
    intro unit member
    cases member
    rfl
  held := by
    intro unit member
    obtain rfl := mem_singleton.mp member
    rfl

lemma Inv.sound {c : Client} (inv : c.Inv) : c.Sound := by
  have start := inv.start
  rcases inv.laid with ⟨unwrapped, stacked, room⟩ |
    ⟨older, newer, split, after, room, above, below, order, first⟩
  · have spread := stacked.spread
    refine ⟨fun unit member some => ?_, spread.pairwise, fun unit member some => ?_, inv.held⟩
    · rw [units] at member
      generalize c.waiting ++ c.current.toList = all at member stacked
      cases all with
      | nil => cases member
      | cons head rest =>
        cases member
        exact stacked.1 some
    · have bounds := spread.within member some
      omega
  · have spread := below.spread.append (Spread.mono above.spread order le_rfl)
    have reordered : c.units.Perm ((newer ++ c.current.toList) ++ older) := by
      rw [units, split, append_assoc]
      exact perm_append_comm
    refine ⟨fun unit member some => ?_, ?_, fun unit member some => ?_, inv.held⟩
    · rw [units, split, append_assoc] at member
      cases older with
      | nil => exact absurd (first rfl unit member) some
      | cons head rest =>
        cases member
        exact above.1 some
    · exact (reordered.pairwise_iff Placed.Apart.symm).mpr spread.pairwise
    · have bounds := spread.within (reordered.mem_iff.mp member) some
      omega

section Steps

variable {q : OutputQueue} {waiting current : List AuSpan} {unit : AuSpan}

lemma Laid.within (laid : Laid q waiting current) (member : unit ∈ waiting) (some : unit.values ≠ []) :
    unit.stop ≤ q.back ∨ q.wrapPos ≠ q.base ∧ q.front ≤ unit.start := by
  rcases laid with ⟨-, stacked, -⟩ | ⟨older, newer, split, after, -, above, below, -, -⟩
  · exact .inl (stacked.spread.within (mem_append_left _ member) some).2
  rw [split] at member
  rcases mem_append.mp member with old | new
  · exact .inr ⟨after.ne', (above.spread.within old some).1⟩
  · exact .inl (below.spread.within (mem_append_left _ new) some).2

lemma Laid.push_room (laid : Laid q waiting current) (start : q.base ≤ q.front)
    (pushed : (q.push chunk).1 = .pushed) :
    (q.wrapPos = q.base -> q.back + chunk.size ≤ q.stop) ∧ (q.wrapPos ≠ q.base -> q.back + chunk.size ≤ q.front) := by
  rcases laid with ⟨unwrapped, stacked, inside⟩ | ⟨older, newer, -, after, inside, above, below, order, -⟩
  · have ends := stacked.spread.le
    exact OutputQueue.push_room (start.trans ends) inside (fun wrapped => absurd unwrapped wrapped) pushed
  · have last := above.spread.le
    exact OutputQueue.push_room below.spread.le (by omega) (fun _ => ⟨order, by omega⟩) pushed

lemma Laid.begin (laid : Laid q waiting []) : Laid q waiting [⟨q.back, []⟩] := by
  have empty : Stacked q.back [(⟨q.back, []⟩ : AuSpan)] q.back := ⟨fun _ => rfl, rfl⟩
  rcases laid with ⟨unwrapped, stacked, room⟩ | ⟨older, newer, split, after, room, above, below, order, first⟩
  · rw [append_nil] at stacked
    exact .straight unwrapped (stacked_append.mpr ⟨_, stacked, empty⟩) room
  rw [append_nil] at below first
  refine .wrapped older newer split after room above (stacked_append.mpr ⟨_, below, empty⟩) order fun none => ?_
  cases newer with
  | nil =>
    intro unit member
    cases member
    rfl
  | cons head rest => exact first none

lemma Laid.wrap (laid : Laid q waiting []) (unwrapped : q.wrapPos = q.base) (start : q.base ≤ q.front) :
    Laid { q with wrapPos := q.back, back := q.base } waiting [⟨q.base, []⟩] := by
  have empty : Stacked q.base [(⟨q.base, []⟩ : AuSpan)] q.base := ⟨fun _ => rfl, rfl⟩
  rcases laid with ⟨-, stacked, room⟩ | ⟨-, -, -, after, -, -, -, -, -⟩
  · rw [append_nil] at stacked
    have ends := stacked.spread.le
    by_cases none : q.back = q.base
    · refine .straight none (stacked_append.mpr ⟨q.base, none ▸ stacked, empty⟩) (Nat.le_add_right _ _)
    refine .wrapped waiting [] (by simp) ?_ room stacked empty start fun _ => ?_
    · change q.base < q.back
      omega
    · intro unit member
      cases member
      rfl
  · exact absurd unwrapped after.ne'

lemma Laid.extend {before values : Bytes} {start : Nat} (laid : Laid q waiting [⟨start, before⟩])
    (ends : start + before.length = q.back) {q' : OutputQueue} (same : q'.base = q.base ∧ q'.front = q.front ∧
      q'.wrapPos = q.wrapPos ∧ q'.stop = q.stop) (back : q'.back = q.back + values.length)
    (room : (q.wrapPos = q.base -> q'.back ≤ q.stop) ∧ (q.wrapPos ≠ q.base -> q'.back ≤ q.front))
    (free : values ≠ [] -> waiting = [] -> q.wrapPos = q.base) : Laid q' waiting [⟨start, before ++ values⟩] := by
  obtain ⟨base, front, wrapPos, stop⟩ := same
  rcases laid with ⟨unwrapped, stacked, -⟩ | ⟨older, newer, split, after, inside, above, below, order, first⟩
  · refine .straight (by omega) ?_ (by rw [stop]; exact room.1 unwrapped)
    rw [front, back]
    exact stacked.extend ends values
  refine .wrapped older newer split (by omega) (by omega) (by rwa [front, wrapPos]) ?_ ?_ fun none => ?_
  · rw [base, back]
    exact below.extend ends values
  · rw [front]
    exact room.2 after.ne'
  cases newer with
  | nil =>
    intro unit member
    cases member
    have nothing : values = [] := by
      by_contra some
      exact after.ne' (free some (by simp [split, none]))
    have own : before = [] := first none _ rfl
    simp [own, nothing]
  | cons head rest => exact first none

lemma Laid.release (laid : Laid q (unit :: waiting) current) (start : q.base ≤ q.front) :
    ∃ q', q.popFront unit.values.length = some q' ∧ q'.memory = q.memory ∧ q'.back = q.back ∧
      q'.base ≤ q'.front ∧ Laid q' waiting current := by
  rcases laid with ⟨unwrapped, ⟨-, rest⟩, room⟩ | ⟨older, newer, split, after, room, above, below, order, first⟩
  · have inside := rest.spread.le
    refine ⟨{ q with front := q.front + unit.values.length }, ?_, rfl, rfl, Nat.le_add_right_of_le start,
      .straight unwrapped rest room⟩
    rw [popFront, if_pos (by omega), if_neg (by simp [unwrapped])]
  cases older with
  | nil =>
    obtain rfl : unit :: waiting = newer := split
    have none : unit.values.length = 0 := length_eq_zero_iff.mpr (first rfl unit rfl)
    have reached : q.front = q.wrapPos := above
    obtain ⟨-, rest⟩ := below
    have inside : q.back ≤ q.stop := by omega
    rw [none] at rest ⊢
    refine ⟨{ q with front := q.base, wrapPos := q.base }, ?_, rfl, rfl, le_rfl, .straight rfl rest inside⟩
    rw [popFront, if_pos (by omega), if_pos ⟨after.ne', by omega⟩, if_pos (by omega)]
  | cons head older =>
    obtain ⟨rfl, tail⟩ := cons.inj split
    have tail : waiting = older ++ newer := tail
    obtain ⟨-, rest⟩ := above
    have inside := rest.spread.le
    have low : q.back ≤ q.stop := by omega
    by_cases reached : q.wrapPos = q.front + unit.values.length
    · have empty := stacked_of_empty (reached ▸ rest).spread.empty q.base
      refine ⟨{ q with front := q.base, wrapPos := q.base }, ?_, rfl, rfl, le_rfl, .straight rfl ?_ low⟩
      · rw [popFront, if_pos (by omega), if_pos ⟨after.ne', by omega⟩, if_pos reached]
      · have whole := stacked_append.mpr ⟨q.base, empty, below⟩
        rwa [← append_assoc, ← tail] at whole
    · refine ⟨{ q with front := q.front + unit.values.length }, ?_, rfl, rfl, Nat.le_add_right_of_le start,
        .wrapped older newer tail after room rest below (Nat.le_add_right_of_le order) fun none => ?_⟩
      · rw [popFront, if_pos (by omega), if_neg (by omega)]
      · subst none
        exact absurd rest.symm reached

end Steps

variable {c : Client} {unit : AuSpan}

section

variable (inv : c.Inv)

include inv

lemma Inv.finish (own : c.current = some unit) : Inv ⟨c.queue, c.waiting ++ [unit], none⟩ := by
  have laid := inv.laid
  rw [own] at laid
  refine ⟨inv.start, ?_, fun other member => (by cases member), ?_⟩
  · rcases laid with ⟨unwrapped, stacked, room⟩ | ⟨older, newer, split, after, room, above, below, order, first⟩
    · exact .straight unwrapped (by simpa using stacked) room
    · refine .wrapped older (newer ++ [unit]) (by simp [split]) after room above ?_ order ?_
      · simpa using below
      · simpa using first
  · have held := inv.held
    simpa [units, own] using held

lemma Inv.prepare (none : c.current = none) (auMaxSize : Nat) : (c.prepare auMaxSize).Inv := by
  have laid := inv.laid
  have held := inv.held
  simp only [units, none, toList_none, append_nil] at laid held
  change Inv ⟨(c.queue.prepareNextAu auMaxSize).2, c.waiting, if (c.queue.prepareNextAu auMaxSize).1 then
    some ⟨(c.queue.prepareNextAu auMaxSize).2.back, []⟩ else .none⟩
  rcases prepareNextAu_cases c.queue auMaxSize with same | ⟨prepared, unwrapped, wraps⟩
  · rw [same]
    cases (c.queue.prepareNextAu auMaxSize).1 with
    | false => exact ⟨inv.start, laid, fun unit member => (by cases member), by simpa [units] using held⟩
    | true =>
      refine ⟨inv.start, laid.begin, fun unit member => ?_, ?_⟩
      · cases member
        rfl
      · simpa [units, or_imp, forall_and, Placed.Held] using held
  · rw [wraps, prepared]
    refine ⟨inv.start, laid.wrap unwrapped inv.start, fun unit member => ?_, ?_⟩
    · cases member
      rfl
    · simpa [units, or_imp, forall_and, Placed.Held] using held

lemma Inv.push (own : c.current = some unit) (free : ¬c.Strands chunk) :
    (c.push chunk unit).Inv := by
  have laid := inv.laid
  rw [own] at laid
  have ends := inv.ends unit own
  by_cases pushed : (c.queue.push chunk).1 = .pushed
  · obtain ⟨result, -⟩ := push_pushed pushed
    have room := laid.push_room inv.start pushed
    rw [Client.push, if_pos pushed, result]
    refine ⟨inv.start, ?_, fun other member => ?_, fun other member => ?_⟩
    · refine laid.extend ends ⟨rfl, rfl, rfl, rfl⟩ ?_ room fun some none => ?_
      · rw [Chunk.length_bytes]
        rfl
      · by_contra wrapped
        exact free ⟨by simp [own], none, wrapped, some, pushed⟩
    · cases member
      rw [Placed.stop] at ends ⊢
      rw [length_append, Chunk.length_bytes, ← add_assoc, ends]
      rfl
    rw [pushUnchecked_memory]
    rcases mem_append.mp member with old | new
    · refine (inv.held other (mem_append_left _ old)).write fun some => ?_
      rw [Chunk.length_bytes]
      exact (laid.within old some).imp id fun above => (room.2 above.1).trans above.2
    · obtain rfl := mem_singleton.mp new
      rw [← ends]
      exact (inv.held unit (by simp [units, own])).extend chunk.bytes
  · rw [Client.push, if_neg pushed, push_unchanged pushed, ← own]
    exact inv

lemma Inv.release {rest : List AuSpan} (own : c.waiting = unit :: rest) :
    ∃ queue, c.queue.popFront unit.values.length = some queue ∧ Inv ⟨queue, rest, c.current⟩ := by
  have laid := inv.laid
  rw [own] at laid
  obtain ⟨queue, popped, memory, back, start, after⟩ := laid.release inv.start
  refine ⟨queue, popped, start, after, fun other member => ?_, fun other member => ?_⟩
  · exact (inv.ends other member).trans back.symm
  rw [memory]
  refine inv.held other ?_
  rw [units, own]
  exact mem_cons_of_mem unit member

lemma Inv.step {op : Op} (free : ∀ chunk, op = .push chunk -> ¬c.Strands chunk) :
    ∃ next, c.step op = some next ∧ next.Inv := by
  cases op with
  | push chunk =>
    cases own : c.current with
    | none => exact ⟨c, by simp [Client.step, own], inv⟩
    | some unit => exact ⟨c.push chunk unit, by simp [Client.step, own], inv.push own (free chunk rfl)⟩
  | finish =>
    cases own : c.current with
    | none => exact ⟨c, by simp [Client.step, own], inv⟩
    | some unit => exact ⟨_, by simp only [Client.step, own, Option.elim], inv.finish own⟩
  | prepare auMaxSize =>
    cases own : c.current with
    | none => exact ⟨c.prepare auMaxSize, by simp [Client.step, own], inv.prepare own auMaxSize⟩
    | some unit => exact ⟨c, by simp [Client.step, own], inv⟩
  | release =>
    cases own : c.waiting with
    | nil => exact ⟨c, by simp [Client.step, own], inv⟩
    | cons unit rest =>
      obtain ⟨queue, popped, after⟩ := inv.release own
      exact ⟨_, by simp only [Client.step, own, popped, map_some], after⟩

lemma Inv.strands (strands : c.Strands chunk) :
    ∃ next, c.step (.push chunk) = some next ∧ ¬next.Sound := by
  obtain ⟨present, none, wrapped, some, pushed⟩ := strands
  obtain ⟨unit, own⟩ := isSome_iff_exists.mp present
  have laid := inv.laid
  have ends := inv.ends unit own
  rw [own, none] at laid
  refine ⟨c.push chunk unit, by simp [Client.step, own], fun sound => ?_⟩
  rcases laid with ⟨unwrapped, -, -⟩ | ⟨older, newer, split, after, -, above, below, -, first⟩
  · exact wrapped unwrapped
  obtain ⟨rfl, rfl⟩ := append_eq_nil_iff.mp split.symm
  have empty : unit.values = [] := first rfl unit rfl
  have reached : c.queue.front = c.queue.wrapPos := above
  have back : c.queue.base + unit.values.length = c.queue.back := below.2
  have start : unit.start = c.queue.front := by
    have front := sound.front ⟨unit.start, unit.values ++ chunk.bytes⟩
    rw [Client.push, if_pos pushed, (push_pushed pushed).1, none] at front
    exact front rfl (by simp [some])
  rw [empty] at back
  have begun : unit.start = c.queue.back := by simpa [Placed.stop, empty] using ends
  simp only [length_nil] at back
  omega

end

lemma run_append (c : Client) (first second : List Op) :
    c.run (first ++ second) = (c.run first).bind fun next => next.run second := by
  simp [run, foldlM_append]

lemma run_singleton (c : Client) (op : Op) : c.run [op] = c.step op := by
  simp [run]

lemma run_inv {start : Client} (inv : start.Inv) (ops : List Op)
    (free : ∀ done chunk left c, ops = done ++ .push chunk :: left -> start.run done = some c -> c.Inv ->
      ¬c.Strands chunk) : ∃ c, start.run ops = some c ∧ c.Inv := by
  induction ops using reverseRecOn with
  | nil => exact ⟨start, rfl, inv⟩
  | append_singleton ops op ih =>
    obtain ⟨c, ran, kept⟩ := ih fun done chunk left c split => free done chunk (left ++ [op]) c (by simp [split])
    rw [run_append, ran, bind_some, run_singleton]
    exact kept.step fun chunk own => free ops chunk [] c (by rw [own]) ran kept

end Client

open Client

theorem output_queue_iff (base size : Nat) (fits : size < 2 ^ 32) (memory : Nat -> UInt8) (ops : List Op) :
    (∀ done left, ops = done ++ left ->
        ∃ c, (fresh (.fresh base size fits memory)).run done = some c ∧ c.Sound) ↔
      ∀ done chunk left c, ops = done ++ .push chunk :: left ->
        (fresh (.fresh base size fits memory)).run done = some c -> ¬c.Strands chunk := by
  have start := inv_fresh base size fits memory
  constructor
  · intro sound
    have first : ∀ done chunk left c, ops = done ++ .push chunk :: left ->
        (fresh (.fresh base size fits memory)).run done = some c -> c.Inv -> ¬c.Strands chunk := by
      intro done chunk left c split ran kept strands
      obtain ⟨bad, stepped, unsound⟩ := kept.strands strands
      obtain ⟨next, ran', good⟩ := sound (done ++ [.push chunk]) left (by simpa using split)
      rw [run_append, ran, bind_some, run_singleton] at ran'
      obtain rfl := some.inj (ran'.symm.trans stepped)
      exact unsound good
    intro done chunk left c split ran
    obtain ⟨c', ran', kept⟩ := run_inv start done fun earlier chunk' later c' inside =>
      first earlier chunk' (later ++ .push chunk :: left) c' (by simp [split, inside])
    obtain rfl := some.inj (ran.symm.trans ran')
    exact first done chunk left c split ran kept
  · intro free done left split
    obtain ⟨c, ran, kept⟩ := run_inv start done fun earlier chunk later c inside ran _ =>
      free earlier chunk (later ++ left) c (by simp [split, inside]) ran
    exact ⟨c, ran, kept.sound⟩

def exampleQueue : OutputQueue := .fresh 0 40 (by decide) fun _ => 0

def wrappingOps : List Op := [.push ⟨[], replicate 38 1⟩, .finish, .prepare 4, .push ⟨[], [2]⟩]

theorem output_queue_wraps : wrappingOps.length = 4 ∧
    ∀ done left, wrappingOps = done ++ left -> ∃ c, (fresh exampleQueue).run done = some c ∧ c.Sound := by
  refine ⟨rfl, (output_queue_iff 0 40 (by decide) (fun _ => 0) wrappingOps).mpr ?_⟩
  intro done chunk left c split ran strands
  rcases done with _ | ⟨_, _ | ⟨_, _ | ⟨_, _ | ⟨_, done⟩⟩⟩⟩
  · cases ran
    exact strands.2.2.1 rfl
  · cases split
  · cases split
  · cases split
    cases ran
    exact absurd strands.2.1 (by decide)
  · simp [wrappingOps] at split

def strandedOps : List Op :=
  [.push ⟨[], replicate 38 1⟩, .finish, .release, .prepare 4, .push ⟨[], [2]⟩, .finish, .release]

theorem output_queue_stranded :
    ((fresh exampleQueue).run (strandedOps.take 5)).map (fun c => (c.units.map (·.start), c.queue.front)) =
        some ([0], 38) ∧
      (fresh exampleQueue).run strandedOps = none ∧
      ¬∀ done left, strandedOps = done ++ left -> ∃ c, (fresh exampleQueue).run done = some c ∧ c.Sound := by
  have fails : (fresh exampleQueue).run strandedOps = none := by rfl
  refine ⟨by rfl, fails, fun sound => ?_⟩
  obtain ⟨c, ran, -⟩ := sound strandedOps [] (by simp)
  rw [fails] at ran
  cases ran

end EmuCore.Dmux
