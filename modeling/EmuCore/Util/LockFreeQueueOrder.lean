import EmuCore.Util.LockFreeQueue

namespace EmuCore.Util.LockFree

open LinkedList List Function Option

variable {P A T : Type}

def Memory.values (memory : Memory A T) (items : List A) : List T := items.filterMap memory.data

def Producer.item : Producer A T -> Option A
  | .linked _ item _ => some item
  | .retrying _ item _ => some item
  | _ => none

def Producer.Owns (memory : Memory A T) : Producer A T -> Prop
  | .linked value item oldv => memory.data item = some value ∧ memory.link item = oldv
  | .retrying value item _ => memory.data item = some value
  | _ => True

def Holding (memory : Memory A T) (items : List A) (batch : Option (Bool × List T)) : Consumer A T -> Prop
  | .idle => items = [] ∧ batch = none
  | .observed pop => items = [] ∧ batch = none ∧ pop.newestFirst = false
  | .detached pop head => Chain memory.link (some head) items ∧ pop.newestFirst = false ∧
      batch = some (false, memory.values items.reverse)
  | .reversing pop head prev => ∃ turned rest, items = turned ++ rest ∧ Chain memory.link (some head) turned ∧
      Chain memory.link (some prev) rest ∧ pop.newestFirst = false ∧
      batch = some (false, memory.values (rest.reverse ++ turned))
  | .delivering pop slice _ elements => Chain memory.link slice items ∧ ∃ whole,
      batch = some (pop.newestFirst, whole) ∧
      elements ++ memory.values items = Drain.order pop.newestFirst whole

structure Private (memory : Memory A T) (producers : P -> Producer A T) (shared : List A) : Prop where
  owns : ∀ i, (producers i).Owns memory
  apart : ∀ i a, (producers i).item = some a -> a ∉ shared
  alone : ∀ i j a, (producers i).item = some a -> (producers j).item = some a -> i = j

structure Invariant (s : State P A T) (queue items : List A) (abstract : Drain.Queue T) : Prop where
  run : Drain.Run s.events abstract
  chain : Chain s.memory.link s.head queue
  waiting : abstract.waiting = s.memory.values queue.reverse
  holding : Holding s.memory items abstract.batch s.consumer
  distinct : (queue ++ items).Nodup
  live : ∀ a ∈ queue ++ items, s.memory.data a ≠ none
  apart : Private s.memory s.producers (queue ++ items)

def Memory.Agrees (memory other : Memory A T) (items : List A) : Prop :=
  ∀ a ∈ items, other.link a = memory.link a ∧ other.data a = memory.data a

variable {memory other : Memory A T}

lemma values_congr {items : List A} (agrees : memory.Agrees other items) {part : List A}
    (among : ∀ a ∈ part, a ∈ items) : other.values part = memory.values part :=
  filterMap_congr fun a member => (agrees a (among a member)).2

lemma chain_congr {items : List A} (agrees : memory.Agrees other items) {first : Option A}
    (chain : Chain memory.link first items) : Chain other.link first items :=
  chain.congr fun a member => (agrees a member).1

variable {consumer : Consumer A T}

lemma Holding.congr {items : List A} {batch : Option (Bool × List T)}
    (holding : Holding memory items batch consumer) (agrees : memory.Agrees other items) :
    Holding other items batch consumer := by
  cases consumer with
  | idle | observed pop => exact holding
  | detached pop head =>
    obtain ⟨chain, oldest, rfl⟩ := holding
    refine ⟨chain_congr agrees chain, oldest, ?_⟩
    rw [values_congr agrees fun a member => mem_reverse.mp member]
  | reversing pop head prev =>
    obtain ⟨turned, rest, rfl, front, back, oldest, rfl⟩ := holding
    refine ⟨turned, rest, rfl, front.congr fun a member => (agrees a (mem_append_left _ member)).1,
      back.congr fun a member => (agrees a (mem_append_right _ member)).1, oldest, ?_⟩
    rw [values_congr agrees fun a member => ?_]
    simpa [or_comm] using member
  | delivering pop slice count elements =>
    obtain ⟨chain, whole, rfl, same⟩ := holding
    refine ⟨chain_congr agrees chain, whole, rfl, ?_⟩
    rw [values_congr agrees fun a member => member, same]

lemma Producer.Owns.congr {producer : Producer A T} (owns : producer.Owns memory)
    (same : ∀ a, producer.item = some a -> other.link a = memory.link a ∧ other.data a = memory.data a) :
    producer.Owns other := by
  cases producer with
  | idle | loaded value oldv => trivial
  | linked value item oldv =>
    obtain ⟨link, data⟩ := same item rfl
    exact ⟨data.trans owns.1, link.trans owns.2⟩
  | retrying value item oldv => exact (same item rfl).2.trans owns

lemma Producer.Owns.live {producer : Producer A T} (owns : producer.Owns memory) {a : A}
    (item : producer.item = some a) : memory.data a ≠ none := by
  cases producer with
  | idle | loaded value oldv => cases item
  | linked value item oldv =>
    cases item
    rw [owns.1]
    exact some_ne_none value
  | retrying value item oldv =>
    cases item
    rw [Producer.Owns] at owns
    rw [owns]
    exact some_ne_none value

lemma values_eq_nil {items : List A} (live : ∀ a ∈ items, memory.data a ≠ none) :
    memory.values items = [] ↔ items = [] := by
  cases items with
  | nil => simp [Memory.values]
  | cons a rest =>
    obtain ⟨value, data⟩ := ne_none_iff_exists'.mp (live a mem_cons_self)
    simp [Memory.values, data]

lemma Private.mono {producers : P -> Producer A T} {shared fewer : List A} (apart : Private memory producers shared)
    (sub : ∀ a ∈ fewer, a ∈ shared)
    (same : ∀ a, a ∉ shared -> other.link a = memory.link a ∧ other.data a = memory.data a) :
    Private other producers fewer where
  owns := fun i => (apart.owns i).congr fun a holds => same a (apart.apart i a holds)
  apart := fun i a holds member => apart.apart i a holds (sub a member)
  alone := apart.alone

variable {s : State P A T} {queue items : List A} {abstract : Drain.Queue T}

variable (inv : Invariant s queue items abstract)

include inv

lemma Invariant.held (at_ : s.consumer = consumer) :
    Holding s.memory items abstract.batch consumer := at_ ▸ inv.holding

lemma Invariant.itemsDistinct : items.Nodup :=
  (nodup_append'.mp inv.distinct).2.1

lemma Invariant.itemsLive : ∀ a ∈ items, s.memory.data a ≠ none :=
  fun a member => inv.live a (mem_append_right _ member)

lemma Invariant.detach {pop : Pop} (nothing : items = [])
    (free : abstract.batch = none)
    (holding : Holding s.memory queue (some (pop.newestFirst, s.memory.values queue.reverse)) consumer) :
    Invariant (s.detach pop consumer) [] queue ⟨[], some (pop.newestFirst, abstract.waiting)⟩ := by
  obtain ⟨waiting, batch⟩ := abstract
  obtain rfl : batch = none := free
  subst nothing
  have same : queue ++ [] = [] ++ queue := append_nil queue
  refine ⟨inv.run.snoc (.take waiting pop.newestFirst), rfl, rfl, ?_, same ▸ inv.distinct, same ▸ inv.live,
    same ▸ inv.apart⟩
  obtain rfl : waiting = _ := inv.waiting
  exact holding

lemma Invariant.turn {kept : List A}
    (same : ∀ a, a ∉ items -> memory.link a = s.memory.link a ∧ memory.data a = s.memory.data a)
    (sub : ∀ a ∈ kept, a ∈ items) (distinct : kept.Nodup) (live : ∀ a ∈ kept, memory.data a ≠ none)
    (holding : Holding memory kept abstract.batch consumer) :
    Invariant { s with memory, consumer } queue kept abstract := by
  obtain ⟨distinctQueue, _, disjoint⟩ := nodup_append'.mp inv.distinct
  have agrees : s.memory.Agrees memory queue := fun a member => same a fun held => disjoint member held
  have within : ∀ a ∈ queue ++ kept, a ∈ queue ++ items := fun a member =>
    mem_append.mpr ((mem_append.mp member).imp_right (sub a))
  constructor
  case run => exact inv.run
  case chain => exact chain_congr agrees inv.chain
  case waiting =>
    rw [inv.waiting]
    exact (values_congr agrees fun a member => mem_reverse.mp member).symm
  case holding => exact holding
  case distinct =>
    exact nodup_append'.mpr ⟨distinctQueue, distinct, fun a member held => disjoint member (sub a held)⟩
  case live =>
    intro a member
    rcases mem_append.mp member with queued | held
    · rw [(agrees a queued).2]
      exact inv.live a (mem_append_left _ queued)
    · exact live a held
  case apart =>
    exact inv.apart.mono within fun a outside => same a fun held => outside (mem_append_right _ held)

variable {count : Nat} {elements : List T}

lemma Invariant.finish {pop : Pop}
    (at_ : s.consumer = .delivering pop none count elements) :
    Invariant (s.finish pop count elements) queue [] ⟨abstract.waiting, none⟩ := by
  obtain ⟨chain, whole, batch, same⟩ := inv.held at_
  obtain rfl := chain.eq_nil
  obtain ⟨waiting, held⟩ := abstract
  obtain rfl : held = _ := batch
  refine ⟨?_, inv.chain, inv.waiting, ⟨rfl, rfl⟩, inv.distinct, inv.live, inv.apart⟩
  have all : elements = Drain.order pop.newestFirst whole := by simpa [Memory.values] using same
  rw [State.finish, all]
  exact inv.run.snoc (.deliver waiting whole pop.newestFirst)

omit inv in
lemma Holding.nothing (memory : Memory A T) (pop : Pop) :
    Holding memory [] (some (pop.newestFirst, memory.values [].reverse)) (.delivering pop none 0 []) := by
  refine ⟨rfl, [], rfl, ?_⟩
  cases pop <;> rfl

lemma Invariant.observed {pop : Pop} (at_ : s.consumer = .observed pop) :
    ∃ queue' items' abstract',
      Invariant (s.detach pop (s.head.elim (.delivering pop none 0 []) fun head => .detached pop head))
        queue' items' abstract' := by
  obtain ⟨nothing, free, oldest⟩ := inv.held at_
  refine ⟨[], queue, _, inv.detach nothing free ?_⟩
  have chain := inv.chain
  cases queue with
  | nil =>
    have head : s.head = none := chain
    rw [head]
    exact .nothing s.memory pop
  | cons first rest =>
    rw [chain.1]
    refine ⟨?_, oldest, by rw [oldest]⟩
    rw [← chain.1]
    exact chain

variable {after : State P A T} {item head : A}

omit inv

section consumer

variable [DecidableEq A]

lemma setLink_self (memory : Memory A T) (item : A) (link : Option A) : (memory.setLink item link).link item = link :=
  update_self _ _ _

lemma setLink_other (memory : Memory A T) {a : A} (link : Option A) (other : a ≠ item) :
    (memory.setLink item link).link a = memory.link a ∧ (memory.setLink item link).data a = memory.data a :=
  ⟨update_of_ne other _ _, rfl⟩

include inv

lemma Invariant.detached {pop : Pop}
    (at_ : s.consumer = .detached pop head) (move : s.consume (.detached pop head) = some after) :
    Invariant after queue items abstract := by
  obtain ⟨chain, oldest, batch⟩ := inv.held at_
  have distinct := inv.itemsDistinct
  have live := inv.itemsLive
  obtain ⟨rest, rfl, later⟩ := chain.of_some
  rw [State.consume] at move
  split at move
  next last =>
    cases move
    rw [last] at later
    obtain rfl := later.eq_nil
    refine inv.turn (fun _ _ => ⟨rfl, rfl⟩) (fun a member => member) distinct live
      ⟨⟨rfl, last⟩, s.memory.values [head].reverse, by rw [batch, oldest], ?_⟩
    rw [oldest]
    rfl
  next prev more =>
    cases move
    rw [more] at later
    obtain ⟨fresh, _⟩ := nodup_cons.mp distinct
    refine inv.turn (fun a outside => setLink_other _ _ fun isFirst => outside (isFirst ▸ mem_cons_self))
      (fun a member => member) distinct live ⟨[head], rest, rfl, ⟨rfl, update_self _ _ _⟩,
        later.update fresh, oldest, ?_⟩
    rw [batch, reverse_cons]
    rfl

lemma Invariant.reversing {pop : Pop} {prev : A}
    (at_ : s.consumer = .reversing pop head prev) (move : s.consume (.reversing pop head prev) = some after) :
    ∃ items', Invariant after queue items' abstract := by
  obtain ⟨turned, rest, rfl, front, back, oldest, batch⟩ := inv.held at_
  have distinct := inv.itemsDistinct
  obtain ⟨more, rfl, later⟩ := back.of_some
  cases move
  have moved : (prev :: turned ++ more).Perm (turned ++ prev :: more) := perm_middle.symm
  have distinctMoved := moved.nodup_iff.mpr distinct
  obtain ⟨fresh, _⟩ := nodup_cons.mp distinctMoved
  have freshTurned : prev ∉ turned := fun member => fresh (mem_append_left _ member)
  have freshMore : prev ∉ more := fun member => fresh (mem_append_right _ member)
  have frontMoved : Chain (s.memory.setLink prev (some head)).link (some prev) (prev :: turned) :=
    ⟨rfl, by rw [setLink_self]; exact front.update freshTurned⟩
  refine ⟨prev :: turned ++ more, inv.turn (fun a outside => setLink_other _ _ fun isPrev => outside ?_)
    (fun a member => moved.mem_iff.mp member) distinctMoved
    (fun a member => inv.itemsLive a (moved.mem_iff.mp member)) ?_⟩
  · rw [isPrev]
    simp
  cases next : s.memory.link prev with
  | none =>
    rw [next] at later
    obtain rfl := later.eq_nil
    rw [append_nil]
    refine ⟨frontMoved, _, by rw [batch, oldest], ?_⟩
    rw [oldest]
    rfl
  | some pprev =>
    refine ⟨prev :: turned, more, rfl, frontMoved, ?_, oldest, ?_⟩
    · rw [← next]
      exact later.update freshMore
    · rw [batch, reverse_cons, append_assoc]
      rfl

lemma Invariant.delivering {pop : Pop}
    (at_ : s.consumer = .delivering pop (some item) count elements)
    (move : s.consume (.delivering pop (some item) count elements) = some after) :
    ∃ items', Invariant after queue items' abstract := by
  obtain ⟨chain, whole, batch, same⟩ := inv.held at_
  have distinct := inv.itemsDistinct
  have live := inv.itemsLive
  obtain ⟨rest, rfl, later⟩ := chain.of_some
  obtain ⟨value, data, rfl⟩ := map_eq_some_iff.mp move
  obtain ⟨fresh, distinctRest⟩ := nodup_cons.mp distinct
  have other : ∀ a, a ≠ item -> (s.memory.free item).link a = s.memory.link a ∧
      (s.memory.free item).data a = s.memory.data a := fun a differs => ⟨rfl, update_of_ne differs _ _⟩
  have agrees : s.memory.Agrees (s.memory.free item) rest := fun a member =>
    other a fun isItem => fresh (isItem ▸ member)
  refine ⟨rest, inv.turn (fun a outside => other a fun isItem => outside (isItem ▸ mem_cons_self))
    (fun a member => mem_cons_of_mem _ member) distinctRest (fun a member => ?_)
    ⟨chain_congr agrees later, whole, batch, ?_⟩⟩
  · rw [(agrees a member).2]
    exact live a (mem_cons_of_mem _ member)
  · rw [values_congr agrees fun a member => member, ← same]
    simp [Memory.values, data]

omit inv in
lemma consume_reversing {pop : Pop} {prev : A} {rest : List A} (back : Chain s.memory.link (some prev) rest)
    (distinct : rest.Nodup) (move : s.consume (.reversing pop head prev) = some after) :
    (∃ slice, after.consumer = .delivering pop slice 0 []) ∨ ∃ pprev more,
      after.consumer = .reversing pop prev pprev ∧ Chain after.memory.link (some pprev) more ∧
      more.length < rest.length := by
  obtain ⟨more, rfl, later⟩ := back.of_some
  cases move
  cases next : s.memory.link prev with
  | none => exact .inl ⟨some prev, rfl⟩
  | some pprev =>
    refine .inr ⟨pprev, more, rfl, ?_, Nat.lt_succ_self _⟩
    rw [← next]
    exact later.update (nodup_cons.mp distinct).1

lemma Invariant.consume (move : s.consume s.consumer = some after) :
    ∃ queue' items' abstract', Invariant after queue' items' abstract' := by
  cases at_ : s.consumer with
  | idle =>
    rw [at_] at move
    cases move
  | observed pop =>
    rw [at_] at move
    cases move
    exact inv.observed at_
  | detached pop head => exact ⟨queue, items, abstract, inv.detached at_ (at_ ▸ move)⟩
  | reversing pop head prev =>
    obtain ⟨kept, inv⟩ := inv.reversing at_ (at_ ▸ move)
    exact ⟨queue, kept, abstract, inv⟩
  | delivering pop slice count elements =>
    cases slice with
    | none =>
      rw [at_] at move
      cases move
      exact ⟨queue, [], _, inv.finish at_⟩
    | some item =>
      obtain ⟨kept, inv⟩ := inv.delivering at_ (at_ ▸ move)
      exact ⟨queue, kept, abstract, inv⟩

end consumer

variable [DecidableEq P]

lemma Private.update {producers : P -> Producer A T} {shared more : List A} (apart : Private memory producers shared)
    {i : P} {after : Producer A T} (owns : after.Owns other)
    (same : ∀ j a, j ≠ i -> (producers j).item = some a -> other.link a = memory.link a ∧ other.data a = memory.data a)
    (outside : ∀ j a, j ≠ i -> (producers j).item = some a -> a ∉ more)
    (mine : ∀ a, after.item = some a -> a ∉ more ∧ ∀ j, j ≠ i -> (producers j).item ≠ some a) :
    Private other (update producers i after) more := by
  have others : ∀ {j}, j ≠ i -> Function.update producers i after j = producers j :=
    fun differs => update_of_ne differs _ _
  constructor
  case owns =>
    intro j
    by_cases isMine : j = i
    · subst isMine
      rwa [update_self]
    · rw [others isMine]
      exact (apart.owns j).congr fun a holds => same j a isMine holds
  case apart =>
    intro j a holds
    by_cases isMine : j = i
    · subst isMine
      rw [update_self] at holds
      exact (mine a holds).1
    · rw [others isMine] at holds
      exact outside j a isMine holds
  case alone =>
    intro j k a first second
    by_cases mineFirst : j = i <;> by_cases mineSecond : k = i
    · rw [mineFirst, mineSecond]
    · subst mineFirst
      rw [update_self] at first
      rw [others mineSecond] at second
      exact absurd second ((mine a first).2 k mineSecond)
    · subst mineSecond
      rw [update_self] at second
      rw [others mineFirst] at first
      exact absurd first ((mine a second).2 j mineFirst)
    · rw [others mineFirst] at first
      rw [others mineSecond] at second
      exact apart.alone j k a first second

include inv

lemma Invariant.write (i : P) {after : Producer A T}
    (fresh : item ∉ queue ++ items) (others : ∀ j, j ≠ i -> (s.producers j).item ≠ some item)
    (same : ∀ a, a ≠ item -> memory.link a = s.memory.link a ∧ memory.data a = s.memory.data a)
    (holds : after.item = some item) (owns : after.Owns memory) :
    Invariant { s.setProducer i after with memory } queue items abstract := by
  have agrees : s.memory.Agrees memory (queue ++ items) := fun a member => same a fun isItem => fresh (isItem ▸ member)
  have agreesQueue : s.memory.Agrees memory queue := fun a member => agrees a (mem_append_left _ member)
  refine ⟨inv.run, chain_congr agreesQueue inv.chain, ?_,
    inv.holding.congr fun a member => agrees a (mem_append_right _ member), inv.distinct, ?_,
    inv.apart.update owns ?_ ?_ ?_⟩
  · rw [inv.waiting]
    exact (values_congr agreesQueue fun a member => mem_reverse.mp member).symm
  · intro a member
    rw [(agrees a member).2]
    exact inv.live a member
  · exact fun j a differs held => same a fun isItem => others j differs (isItem ▸ held)
  · exact fun j a _ held => inv.apart.apart j a held
  · intro a held
    obtain rfl : item = a := some.inj (holds.symm.trans held)
    exact ⟨fresh, others⟩

lemma Invariant.load (i : P) (value : T) (oldv : Option A) :
    Invariant (s.setProducer i (.loaded value oldv)) queue items abstract :=
  { inv with
    apart := inv.apart.update trivial (fun _ _ _ _ => ⟨rfl, rfl⟩) (fun j a _ held => inv.apart.apart j a held)
      fun _ held => absurd held (some_ne_none _).symm }

section

variable {i : P} {value : T} {oldv : Option A} (at_ : s.producers i = .linked value item oldv)

include at_

lemma Invariant.failed (head : Option A) :
    Invariant (s.setProducer i (.retrying value item head)) queue items abstract := by
  have owns := inv.apart.owns i
  rw [at_] at owns
  refine inv.write i (inv.apart.apart i item (by rw [at_]; rfl)) (fun j differs held => differs ?_)
    (fun _ _ => ⟨rfl, rfl⟩) rfl owns.1
  exact inv.apart.alone j i item held (by rw [at_]; rfl)

lemma Invariant.pushed (head : s.head = oldv) :
    Invariant { s.setProducer i .idle with head := some item, events := s.events ++ [.pushed value oldv.isNone] }
      (item :: queue) items ⟨abstract.waiting ++ [value], abstract.batch⟩ := by
  have holds : (s.producers i).item = some item := by rw [at_]; rfl
  have fresh := inv.apart.apart i item holds
  have owns := inv.apart.owns i
  rw [at_] at owns
  obtain ⟨data, link⟩ := owns
  have liveQueue : ∀ a ∈ queue.reverse, s.memory.data a ≠ none := fun a member =>
    inv.live a (mem_append_left _ (mem_reverse.mp member))
  have empty : oldv.isNone = abstract.waiting.isEmpty := by
    rw [inv.waiting, Bool.eq_iff_iff, List.isEmpty_iff, values_eq_nil liveQueue, reverse_eq_nil_iff, ← head,
      inv.chain.head]
    cases queue <;> simp
  constructor
  case run =>
    refine inv.run.snoc ?_
    rw [empty]
    exact .push abstract.waiting abstract.batch value
  case chain =>
    have next : Chain s.memory.link (s.memory.link item) queue := by
      rw [link, ← head]
      exact inv.chain
    exact ⟨rfl, next⟩
  case waiting =>
    rw [inv.waiting]
    simp [Memory.values, State.setProducer, data]
  case holding => exact inv.holding
  case distinct => exact nodup_cons.mpr ⟨fresh, inv.distinct⟩
  case live =>
    intro a member
    rcases mem_cons.mp member with rfl | old
    · exact data ▸ some_ne_none value
    · exact inv.live a old
  case apart =>
    refine inv.apart.update trivial (fun _ _ _ _ => ⟨rfl, rfl⟩) (fun j a differs held member => ?_)
      fun _ held => absurd held (some_ne_none _).symm
    rcases mem_cons.mp member with rfl | old
    · exact differs (inv.apart.alone j i a held holds)
    · exact inv.apart.apart j a held old

end

variable [DecidableEq A]

lemma Invariant.push {i : P} :
    s.push i (s.producers i) = some after -> ∃ queue' items' abstract', Invariant after queue' items' abstract' := by
  generalize at_ : s.producers i = producer
  fun_cases State.push s i producer with
  | case1 value item =>
    rintro ⟨⟩
    exact ⟨_, _, _, inv.pushed at_ rfl⟩
  | case2 value item oldv =>
    rintro ⟨⟩
    exact ⟨_, _, _, inv.failed at_ s.head⟩
  | case3 => rintro ⟨⟩

lemma Invariant.step {action : Action P A T} :
    step s action = some after -> ∃ queue' items' abstract', Invariant after queue' items' abstract' := by
  fun_cases LockFree.step s action with
  | case1 i value =>
    rintro ⟨⟩
    exact ⟨_, _, _, inv.load i value s.head⟩
  | case3 i item value oldv free at_ =>
    rintro ⟨⟩
    have fresh : item ∉ queue ++ items := fun member => inv.live item member free
    exact ⟨_, _, _, inv.write i fresh (fun j _ held => (inv.apart.owns j).live held free)
      (fun a other => ⟨update_of_ne other _ _, update_of_ne other _ _⟩) rfl
      ⟨update_self _ _ _, update_self _ _ _⟩⟩
  | case5 i => exact inv.push
  | case6 i value item oldv at_ =>
    rintro ⟨⟩
    have holds : (s.producers i).item = some item := by rw [at_]; rfl
    have owns := inv.apart.owns i
    rw [at_] at owns
    exact ⟨_, _, _, inv.write i (inv.apart.apart i item holds)
      (fun j differs held => differs (inv.apart.alone j i item held holds))
      (fun a other => setLink_other _ _ other) rfl ⟨owns, setLink_self _ _ _⟩⟩
  | case8 pop at_ newest =>
    rintro ⟨⟩
    obtain ⟨nothing, free⟩ := inv.held at_
    refine ⟨[], queue, _, inv.detach nothing free ⟨inv.chain, _, rfl, ?_⟩⟩
    rw [newest]
    simp [Drain.order, Memory.values, filterMap_reverse]
  | case9 pop at_ _ empty =>
    rintro ⟨⟩
    obtain ⟨nothing, free⟩ := inv.held at_
    have chain := inv.chain
    rw [empty] at chain
    obtain rfl := chain.eq_nil
    exact ⟨[], [], _, inv.detach nothing free (.nothing s.memory pop)⟩
  | case10 pop at_ oldest =>
    rintro ⟨⟩
    obtain ⟨nothing, free⟩ := inv.held at_
    exact ⟨queue, items, abstract, { inv with holding := ⟨nothing, free, Bool.eq_false_iff.mpr oldest⟩ }⟩
  | case12 => exact inv.consume
  | case2 | case4 | case7 | case11 => rintro ⟨⟩

omit inv

lemma reachable_invariant (reach : (system P A T).Reachable s) :
    ∃ queue items abstract, Invariant s queue items abstract := by
  refine reach.invariant (P := fun s => ∃ queue items abstract, Invariant s queue items abstract)
    (fun s start => ?_) fun s action next ⟨queue, items, abstract, inv⟩ move => inv.step move
  cases start
  exact ⟨[], [], ⟨[], none⟩, .nil, rfl, rfl, ⟨rfl, rfl⟩, nodup_nil, by simp, fun _ => trivial,
    fun _ _ held => absurd held (some_ne_none _).symm,
    fun _ _ _ held => absurd held (some_ne_none _).symm⟩

def Finishes (s : State P A T) : Prop :=
  ∃ count last, (system P A T).run s (List.replicate count .consume) = some last ∧ last.consumer = .idle

lemma Finishes.before (finishes : Finishes after) (move : s.consume s.consumer = some after) : Finishes s := by
  obtain ⟨count, last, ran, idle⟩ := finishes
  refine ⟨count + 1, last, ?_, idle⟩
  rw [replicate_succ, Transition.System.run]
  exact bind_eq_some_iff.mpr ⟨after, move, ran⟩

include inv

lemma finishes_delivering {pop : Pop} {slice : Option A}
    (at_ : s.consumer = .delivering pop slice count elements) :
    Finishes s := by
  have chain : Chain s.memory.link slice items := (inv.held at_).1
  induction items generalizing s slice elements with
  | nil =>
    obtain rfl : slice = none := chain
    have done : Finishes (s.finish pop count elements) := ⟨0, _, rfl, rfl⟩
    exact done.before (by rw [at_]; rfl)
  | cons item rest ih =>
    obtain ⟨rfl, chain⟩ := chain
    obtain ⟨value, data⟩ := ne_none_iff_exists'.mp
      (inv.live item (mem_append_right _ mem_cons_self))
    have move : s.consume (.delivering pop (some item) count elements) = some { s with
        memory := s.memory.free item, consumer := .delivering pop (s.memory.link item) count (elements ++ [value]) } := by
      rw [State.consume, data, map_some]
    obtain ⟨kept, invNext⟩ := inv.delivering at_ move
    have holding := invNext.holding.1
    obtain rfl : kept = rest := holding.unique chain
    exact (ih invNext rfl chain).before (at_ ▸ move)

lemma finishes_reversing {pop : Pop} {prev : A} {rest : List A}
    (at_ : s.consumer = .reversing pop head prev) (back : Chain s.memory.link (some prev) rest) : Finishes s := by
  induction left : rest.length using Nat.strong_induction_on generalizing s items head prev rest with
  | _ left ih =>
    subst left
    obtain ⟨after, move⟩ : ∃ after, s.consume (.reversing pop head prev) = some after := ⟨_, rfl⟩
    obtain ⟨kept, invNext⟩ := inv.reversing at_ move
    have distinct : rest.Nodup := by
      obtain ⟨turned, others, rfl, _, again, _⟩ := inv.held at_
      obtain rfl := again.unique back
      exact (nodup_append'.mp inv.itemsDistinct).2.1
    have rest : Finishes after := by
      rcases consume_reversing back distinct move with ⟨slice, delivering⟩ | ⟨pprev, more, again, chain, fewer⟩
      · exact finishes_delivering invNext delivering
      · exact ih more.length fewer invNext again chain rfl
    exact rest.before (at_ ▸ move)

lemma finishes_detached {pop : Pop} (at_ : s.consumer = .detached pop head) :
    Finishes s := by
  cases next : s.memory.link head with
  | none =>
    have move : s.consume (.detached pop head) = some { s with consumer := .delivering pop (some head) 0 [] } := by
      rw [State.consume, next]
    exact (finishes_delivering (inv.detached at_ move) rfl).before (at_ ▸ move)
  | some prev =>
    have move : s.consume (.detached pop head) = some { s with
        memory := s.memory.setLink head none, consumer := .reversing pop head prev } := by
      rw [State.consume, next]
    have invNext := inv.detached at_ move
    obtain ⟨turned, rest, _, _, back, _⟩ := invNext.holding
    exact (finishes_reversing invNext rfl back).before (at_ ▸ move)

lemma finishes : Finishes s := by
  cases at_ : s.consumer with
  | idle => exact ⟨0, s, rfl, at_⟩
  | observed pop =>
    obtain ⟨_, _, _, invNext⟩ := inv.observed at_
    refine Finishes.before ?_ (show s.consume s.consumer = _ by rw [at_]; rfl)
    cases head : s.head with
    | none =>
      rw [head] at invNext
      exact finishes_delivering invNext rfl
    | some first =>
      rw [head] at invNext
      exact finishes_detached invNext rfl
  | detached pop head => exact finishes_detached inv at_
  | reversing pop head prev =>
    obtain ⟨turned, rest, _, _, back, _⟩ := inv.held at_
    exact finishes_reversing inv at_ back
  | delivering pop slice count elements => exact finishes_delivering inv at_

omit inv

structure Counted (s : State P A T) : Prop where
  returned : ∀ call ∈ s.applied, call.count = 0 ∧ .delivered false call.elements ∈ s.events
  counting : ∀ pop slice count elements, s.consumer = .delivering pop slice count elements -> count = 0

omit [DecidableEq P] [DecidableEq A] in
lemma Counted.keep (counted : Counted s) (applied : after.applied = s.applied)
    (events : s.events ⊆ after.events)
    (counting : ∀ pop slice count elements, after.consumer = .delivering pop slice count elements -> count = 0) :
    Counted after :=
  ⟨fun call member => (counted.returned call (applied ▸ member)).imp_right (events ·), counting⟩

omit [DecidableEq P] [DecidableEq A] in
lemma Counted.finish (counted : Counted s) (pop : Pop) (elements : List T) : Counted (s.finish pop 0 elements) := by
  refine ⟨fun call member => ?_, fun _ _ _ _ delivering => by cases delivering⟩
  by_cases applies : pop = .apply
  · subst applies
    rcases mem_append.mp member with old | new
    · exact (counted.returned call old).imp_right (mem_append_left _)
    · obtain rfl := mem_singleton.mp new
      exact ⟨rfl, mem_append_right _ (mem_singleton.mpr rfl)⟩
  · rw [State.finish, if_neg applies] at member
    exact (counted.returned call member).imp_right (mem_append_left _)

omit [DecidableEq P] in
lemma Counted.consume (counted : Counted s) : s.consume s.consumer = some after -> Counted after := by
  generalize at_ : s.consumer = consumer
  fun_cases State.consume s consumer with
  | case1 => rintro ⟨⟩
  | case2 pop =>
    rintro ⟨⟩
    refine counted.keep rfl (subset_append_left _ _) fun _ _ _ _ delivering => ?_
    rw [State.detach] at delivering
    cases head : s.head with
    | none =>
      rw [head] at delivering
      cases delivering
      rfl
    | some first =>
      rw [head] at delivering
      cases delivering
  | case3 pop head =>
    rintro ⟨⟩
    refine counted.keep rfl (Subset.refl _) fun _ _ _ _ delivering => ?_
    cases delivering
    rfl
  | case4 pop head prev =>
    rintro ⟨⟩
    exact counted.keep rfl (Subset.refl _) fun _ _ _ _ delivering => by cases delivering
  | case5 pop head prev pprev =>
    rintro ⟨⟩
    refine counted.keep rfl (Subset.refl _) fun _ _ _ _ delivering => ?_
    clear_value pprev
    cases pprev with
    | none =>
      cases delivering
      rfl
    | some next => cases delivering
  | case6 pop item count elements =>
    intro move
    obtain rfl := counted.counting _ _ _ _ at_
    obtain ⟨value, _, rfl⟩ := map_eq_some_iff.mp move
    refine counted.keep rfl (Subset.refl _) fun _ _ _ _ delivering => ?_
    cases delivering
    rfl
  | case7 pop count elements =>
    rintro ⟨⟩
    obtain rfl := counted.counting _ _ _ _ at_
    exact counted.finish pop elements

lemma Counted.step (counted : Counted s) {action : Action P A T} : step s action = some after -> Counted after := by
  have keep {after : State P A T} (applied : after.applied = s.applied) (events : s.events ⊆ after.events)
      (consumer : after.consumer = s.consumer) : Counted after :=
    counted.keep applied events (consumer ▸ counted.counting)
  have detach (pop : Pop) (slice : Option A) : Counted (s.detach pop (.delivering pop slice 0 [])) := by
    refine counted.keep rfl (subset_append_left _ _) fun _ _ _ _ delivering => ?_
    cases delivering
    rfl
  fun_cases LockFree.step s action with
  | case1 | case3 | case6 =>
    rintro ⟨⟩
    exact keep rfl (Subset.refl _) rfl
  | case5 i =>
    fun_cases State.push s i (s.producers i) with
    | case1 =>
      rintro ⟨⟩
      exact keep rfl (subset_append_left _ _) rfl
    | case2 =>
      rintro ⟨⟩
      exact keep rfl (Subset.refl _) rfl
    | case3 => rintro ⟨⟩
  | case8 pop =>
    rintro ⟨⟩
    exact detach pop s.head
  | case9 pop =>
    rintro ⟨⟩
    exact detach pop none
  | case10 =>
    rintro ⟨⟩
    exact counted.keep rfl (Subset.refl _) fun _ _ _ _ delivering => by cases delivering
  | case12 => exact counted.consume
  | case2 | case4 | case7 | case11 => rintro ⟨⟩

lemma reachable_counted (reach : (system P A T).Reachable s) : Counted s := by
  refine reach.invariant (P := Counted) (fun s start => ?_) fun s action next counted move => counted.step move
  cases start
  exact ⟨by simp, fun _ _ _ _ delivering => by cases delivering⟩

theorem lf_queue_delivers (reach : (system P A T).Reachable s) :
    (∃ queue, Drain.Run s.events queue ∧
      s.events.flatMap Drain.Event.deliveries ++ queue.pending = s.events.flatMap Drain.Event.pushes) ∧
    Finishes s ∧
    ∀ call ∈ s.applied, .delivered false call.elements ∈ s.events ∧
      (call.count = call.elements.length ↔ call.elements = []) := by
  obtain ⟨_, _, abstract, inv⟩ := reachable_invariant reach
  refine ⟨⟨abstract, inv.run, inv.run.balance⟩, finishes inv, fun call member => ?_⟩
  obtain ⟨zero, delivered⟩ := (reachable_counted reach).returned call member
  refine ⟨delivered, ?_⟩
  rw [zero, eq_comm, length_eq_zero_iff]

def empty : State Unit Nat Nat := ⟨⟨fun _ => none, fun _ => none⟩, none, fun _ => .idle, .idle, [], []⟩

def pushAndApply : List (Action Unit Nat Nat) :=
  [.load () 7, .allocate () 0, .exchange (), .pop .apply, .consume, .consume, .consume, .consume]

theorem apply_returns_zero : ((system Unit Nat Nat).run empty pushAndApply).map (·.applied) = some [⟨0, [7]⟩] := rfl

theorem lf_queue_delivers_applied : ∃ s : State Unit Nat Nat, s.applied = [⟨0, [7]⟩] ∧ Finishes s ∧
    ∃ queue, Drain.Run s.events queue ∧
      s.events.flatMap Drain.Event.deliveries ++ queue.pending = s.events.flatMap Drain.Event.pushes := by
  have start : (system Unit Nat Nat).Reachable empty := .init rfl
  have reach := lf_queue_delivers (start.run pushAndApply rfl)
  exact ⟨_, rfl, reach.2.1, reach.1⟩

end EmuCore.Util.LockFree
