import EmuCore.Rsx.MemoryManagerQueue
import Mathlib.Data.List.TakeWhile

namespace EmuCore.Rsx.Mm

open EmuCore.AddressRange Overlay List Option Bool

variable {host : Host}

-- The shared tag does not decrease.
def Ordered (calls : List (Call host)) : Prop := (calls.filterMap Call.request).Pairwise (·.tag ≤ ·.tag)

def requested (initial : Nat -> Protection) (calls : List (Call host)) (page : Nat) : Protection :=
  ((lastRequest calls (page * host.pageSize)).map (·.prot)).getD (initial page)

structure Invariant (initial : Nat -> Protection) (calls : List (Call host)) (exempt : Nat -> Prop) (s : State) :
    Prop where
  sound : ∀ block ∈ s.queue, Sound host block.range
  pending : ∀ address, ¬exempt address -> ∀ block, latest Block.covers s.queue address = some block ->
    ∃ request, lastRequest calls address = some request ∧ block.prot = request.prot ∧
      (Ordered calls -> block.syncTag ≤ request.tag)
  settled : ∀ page, ¬exempt (page * host.pageSize) ->
    latest Block.covers s.queue (page * host.pageSize) = none -> s.pages page = requested initial calls page
  tags : (s.queue.map (·.syncTag)).Sublist ((calls.filterMap Call.request).map (·.tag))

def nowhere (_ : Nat) : Prop := False

variable {initial : Nat -> Protection} {calls : List (Call host)} {exempt : Nat -> Prop} {s : State}

lemma flushed_pages {older : List Block} (sound : ∀ block ∈ older, Sound host block.range) (s : State)
    (newer : List Block) (page : Nat) : (s.flushed host older newer).pages page =
      ((latest Block.covers older (page * host.pageSize)).map (·.prot)).getD (s.pages page) :=
  foldl_memoryProtect sound s.pages page

lemma Invariant.flushed (inv : Invariant initial calls exempt s) (older crushed newer : List Block)
    (split : s.queue = older ++ crushed ++ newer)
    (inside : ∀ block ∈ crushed, ∀ address, block.covers address = true -> exempt address) :
    Invariant initial calls exempt (s.flushed host older newer) := by
  have soundOlder : ∀ block ∈ older, Sound host block.range := fun block member =>
    inv.sound block (by simp [split, member])
  have whole (address : Nat) (other : ¬exempt address) : latest Block.covers s.queue address =
      (latest Block.covers newer address).or (latest Block.covers older address) := by
    have none : latest Block.covers crushed address = none := latest_eq_none fun block member =>
      eq_false_iff.mpr fun covered => other (inside block member address covered)
    rw [split, latest_append, latest_append, none, none_or]
  constructor
  case sound => exact fun block member => inv.sound block (by simp [split, show block ∈ newer from member])
  case pending =>
    intro address other block found
    have found : latest Block.covers newer address = some block := found
    refine inv.pending address other block ?_
    rw [whole address other, found, some_or]
  case settled =>
    intro page other gone
    have gone : latest Block.covers newer (page * host.pageSize) = none := gone
    rw [flushed_pages soundOlder]
    cases found : latest Block.covers older (page * host.pageSize) with
    | none =>
      refine inv.settled page other ?_
      rw [whole _ other, gone, found, or_none]
    | some block =>
      obtain ⟨request, last, prot, _⟩ := inv.pending _ other block (by rw [whole _ other, gone, found, none_or])
      rw [requested, last, map_some, map_some, prot]
      rfl
  case tags =>
    have part : (newer.map (·.syncTag)).Sublist (s.queue.map (·.syncTag)) := by
      rw [split, map_append]
      exact sublist_append_right _ _
    exact part.trans inv.tags

lemma Invariant.flush (inv : Invariant initial calls exempt s) (older newer : List Block)
    (split : s.queue = older ++ newer) :
    mmFlushMprotectQueue host s older.length = some (s.flushed host older newer) ∧
      Invariant initial calls exempt (s.flushed host older newer) := by
  have soundOlder : ∀ block ∈ older, Sound host block.range := fun block member =>
    inv.sound block (by simp [split, member])
  have soundNewer : ∀ block ∈ newer, Sound host block.range := fun block member =>
    inv.sound block (by simp [split, member])
  refine ⟨by rw [flush_eq split soundOlder, sanitize_sound soundNewer], ?_⟩
  exact inv.flushed older [] newer (by rw [split, append_nil]) (by simp)

lemma Invariant.mono (inv : Invariant initial calls nowhere s) (exempt : Nat -> Prop) :
    Invariant initial calls exempt s :=
  ⟨inv.sound, fun address _ => inv.pending address id, fun page _ => inv.settled page id, inv.tags⟩

lemma requests_append (calls : List (Call host)) (call : Call host) :
    (calls ++ [call]).filterMap Call.request = calls.filterMap Call.request ++ call.request.toList := by
  rw [filterMap_append]
  cases request : call.request <;> simp [request]

variable {call : Call host}

lemma lastRequest_silent (silent : call.request = none) (address : Nat) :
    lastRequest (calls ++ [call]) address = lastRequest calls address := by
  rw [lastRequest, requests_append, silent, toList_none, append_nil]
  rfl

variable {request : Request host}

lemma lastRequest_append (asks : call.request = some request) (address : Nat) :
    lastRequest (calls ++ [call]) address = if request.covers address then some request else lastRequest calls address := by
  rw [lastRequest, requests_append, asks, toList_some, latest_append, latest_singleton]
  split
  next => rfl
  next => rw [none_or]; rfl

lemma Ordered.of_append (ordered : Ordered (calls ++ [call])) : Ordered calls := by
  rw [Ordered, requests_append] at ordered
  exact (pairwise_append.mp ordered).1

lemma Invariant.silent (inv : Invariant initial calls exempt s) (silent : call.request = none) :
    Invariant initial (calls ++ [call]) exempt s := by
  constructor
  case sound => exact inv.sound
  case pending =>
    intro address other block found
    obtain ⟨request, last, prot, tag⟩ := inv.pending address other block found
    exact ⟨request, (lastRequest_silent silent address).trans last, prot, fun ordered => tag ordered.of_append⟩
  case settled =>
    intro page other none
    rw [inv.settled page other none, requested, requested, lastRequest_silent silent]
  case tags =>
    rw [requests_append, silent, toList_none, append_nil]
    exact inv.tags

lemma protect_pages (request : Request host) (s : State) (page : Nat) :
    (s.protect host request.range.start request.range.length request.prot).pages page =
      if request.covers (page * host.pageSize) then request.prot else s.pages page := by
  have same := memoryProtect_page request.range.sound request.prot s.pages page
  rw [request.range.length_eq, (range_last request.range).1] at same
  rw [request_covers]
  exact same

lemma Invariant.protect (asks : call.request = some request)
    (inv : Invariant initial calls (request.covers · = true) s)
    (free : ∀ block ∈ s.queue, block.range.overlaps (startLength request.range.start request.range.length) = false) :
    Invariant initial (calls ++ [call]) nowhere
      (s.protect host request.range.start request.range.length request.prot) := by
  have apart (address : Nat) (block : Block) (found : latest Block.covers s.queue address = some block) :
      request.covers address = false := by
    have covered : block.covers address = true := latest_covers found
    rw [request_covers]
    exact Sound.overlaps_false (free block (latest_mem found)) covered
  constructor
  case sound => exact inv.sound
  case pending =>
    intro address _ block found
    have other := apart address block found
    obtain ⟨last, same, prot, tag⟩ := inv.pending address (eq_false_iff.mp other) block found
    refine ⟨last, ?_, prot, fun ordered => tag ordered.of_append⟩
    rw [lastRequest_append asks, other]
    exact same
  case settled =>
    intro page _ none
    rw [protect_pages, requested, lastRequest_append asks]
    split
    next => rfl
    next other => exact inv.settled page other none
  case tags =>
    rw [requests_append, map_append]
    exact inv.tags.trans (sublist_append_left _ _)

lemma Invariant.defer (asks : call.request = some request) (inv : Invariant initial calls nowhere s)
    {after : List Block} (deferred : Deferred host s.queue request after) (mirror : Nat -> UInt8) :
    Invariant initial (calls ++ [call]) nowhere ⟨s.pages, mirror, after⟩ := by
  have tags : (after.map (·.syncTag)).Sublist (((calls ++ [call]).filterMap Call.request).map (·.tag)) := by
    rw [requests_append, asks, map_append]
    exact deferred.tags.trans (inv.tags.append (List.Sublist.refl _))
  constructor
  case sound => exact deferred.sound
  case pending =>
    intro address _ block found
    cases covered : request.covers address with
    | true =>
      obtain ⟨other, same, prot⟩ := deferred.within address covered
      obtain rfl : other = block := Option.some.inj (same.symm.trans found)
      refine ⟨request, by rw [lastRequest_append asks, covered]; rfl, prot, fun ordered => ?_⟩
      rw [Ordered, requests_append, asks] at ordered
      have issued : other.syncTag ∈ ((calls ++ [call]).filterMap Call.request).map (·.tag) :=
        tags.subset (List.mem_map_of_mem (latest_mem found))
      rw [requests_append, asks, map_append, mem_append] at issued
      rcases issued with old | new
      · obtain ⟨older, among, tag⟩ := List.mem_map.mp old
        rw [← tag]
        exact (pairwise_append.mp ordered).2.2 older among request (by simp)
      · have tag : other.syncTag = request.tag := by simpa using new
        exact tag.le
    | false =>
      have same := deferred.outside address covered
      have found : latest Block.covers after address = some block := found
      rw [found, map_some] at same
      obtain ⟨old, foundOld, key⟩ := map_eq_some_iff.mp same.symm
      obtain ⟨last, found, prot, tag⟩ := inv.pending address id old foundOld
      refine ⟨last, by rw [lastRequest_append asks, covered]; exact found, ?_, fun ordered => ?_⟩
      · exact (congrArg Prod.fst key).symm.trans prot
      · exact (congrArg Prod.snd key).symm.trans_le (tag ordered.of_append)
  case settled =>
    intro page _ gone
    have gone : latest Block.covers after (page * host.pageSize) = none := gone
    cases covered : request.covers (page * host.pageSize) with
    | true =>
      obtain ⟨block, found, _⟩ := deferred.within _ covered
      rw [gone] at found
      cases found
    | false =>
      have same := deferred.outside _ covered
      rw [gone, map_none, eq_comm, map_eq_none_iff] at same
      rw [requested, lastRequest_append asks, covered]
      exact inv.settled page id same
  case tags => exact tags

def flushCounts (s : State) : Call host -> Nat × Nat
  | .protect request =>
    if request.prot = .rw ∨ request.prot = .wx then
      unlockCounts s.queue (startLength request.range.start request.range.length)
    else (0, 0)
  | .protectImmediate request =>
    if s.queue.any (·.range.overlaps (startLength request.range.start request.range.length)) then
      (s.queue.length, s.queue.length)
    else (0, 0)
  | .flush => (s.queue.length, s.queue.length)
  | .flushAddress vmAddress =>
    let count := mmFindConflict
      (·.range.overlapsAddress (BitVec.ofNat 64 (host.guestBase + vmAddress.toNat))) s.queue
    (count, count)
  | .flushRanges ranges =>
    let count := mmFindConflict (fun block => ranges.any fun range => block.range.overlaps range) s.queue
    (count, count)
  | .flushPartial lastTag => (partialCount lastTag s.queue, partialCount lastTag s.queue)

def flushedBy (s : State) (call : Call host) : List Block := s.queue.take (flushCounts s call).1

def keptBy (s : State) (call : Call host) : List Block := s.queue.drop (flushCounts s call).2

lemma Invariant.flushCount (inv : Invariant initial calls exempt s) {count : Nat} (within : count ≤ s.queue.length) :
    (if count = 0 then some s else mmFlushMprotectQueue host s count) =
      some (s.flushed host (s.queue.take count) (s.queue.drop count)) := by
  split
  next zero =>
    rw [zero]
    rfl
  next =>
    have flush := (inv.flush _ _ (take_append_drop count s.queue).symm).1
    rwa [length_take_of_le within] at flush

lemma findConflict_le (predicate : Block -> Bool) (queue : List Block) :
    mmFindConflict predicate queue ≤ queue.length := by
  have shorter := (dropWhile_suffix (l := queue.reverse) fun block => !predicate block).length_le
  rwa [length_reverse] at shorter

variable {queue : List Block}

lemma findConflict_drop {predicate : Block -> Bool} {block : Block}
    (member : block ∈ queue.drop (mmFindConflict predicate queue)) : predicate block = false := by
  obtain ⟨older, newer, split, count, free⟩ := findConflict_split predicate queue
  rw [← count, split, drop_left] at member
  exact free block member

lemma findConflict_false {predicate : Block -> Bool} (never : ∀ block, predicate block = false) :
    mmFindConflict predicate queue = 0 := by
  rw [mmFindConflict, dropWhile_eq_nil_iff.mpr fun block _ => by rw [never]; rfl]
  rfl

variable (inv : Invariant initial calls nowhere s)

include inv

lemma perform_silent (silent : call.request = none) :
    perform s call = some (s.flushed host (flushedBy s call) (keptBy s call)) := by
  cases call with
  | protect request | protectImmediate request => cases silent
  | flush =>
    have flush := (inv.flush s.queue [] (append_nil _).symm).1
    have taken : flushedBy s (.flush : Call host) = s.queue := take_length
    have left : keptBy s (.flush : Call host) = [] := drop_length
    rwa [taken, left]
  | flushAddress vmAddress =>
    rw [perform, mmFlushAddress]
    split
    next empty =>
      obtain ⟨pages, mirror, queue⟩ := s
      obtain rfl : queue = [] := empty
      rfl
    next => exact inv.flushCount (findConflict_le _ _)
  | flushRanges ranges =>
    rw [perform, mmFlushRanges]
    split
    next nothing =>
      have zero : mmFindConflict (fun block => ranges.any fun range => block.range.overlaps range) s.queue = 0 := by
        rcases nothing with empty | empty
        · rw [empty]
          rfl
        · exact findConflict_false fun block => by rw [empty]; rfl
      rw [flushedBy, keptBy, flushCounts, zero]
      rfl
    next => exact inv.flushCount (findConflict_le _ _)
  | flushPartial lastTag => exact inv.flushCount ( takeWhile_prefix _).length_le

lemma perform_flush (call : Call host) (silent : call.request = none) :
    ∃ after, perform s call = some after ∧ Invariant initial (calls ++ [call]) nowhere after ∧
      after.queue = keptBy s call := by
  have counts : (flushCounts s call).1 = (flushCounts s call).2 := by
    cases call with
    | protect request | protectImmediate request => cases silent
    | flush | flushAddress vmAddress | flushRanges ranges | flushPartial lastTag => rfl
  refine ⟨_, perform_silent inv silent, (inv.flushed _ [] _ ?_ (by simp)).silent silent, rfl⟩
  rw [append_nil, flushedBy, keptBy, counts, take_append_drop]

lemma perform_unlock (unlock : request.prot = .rw ∨ request.prot = .wx) :
    let flushed := s.flushed host (flushedBy s (.protect request)) (keptBy s (.protect request))
    perform s (.protect request) = some (flushed.protect host request.range.start request.range.length request.prot) ∧
      Invariant initial (calls ++ [.protect request]) nowhere
        (flushed.protect host request.range.start request.range.length request.prot) := by
  intro flushed
  obtain ⟨older, crushed, newer, split, counts, inside, free⟩ :=
    unlock_split s.queue (startLength request.range.start request.range.length)
  have flushCounts' : flushCounts s (.protect request) = (older.length, (older ++ crushed).length) := by
    rw [flushCounts, if_pos unlock, counts]
  have isFlushed : flushed = s.flushed host older newer := by
    have first : flushedBy s (.protect request) = older := by
      rw [flushedBy, flushCounts', split, append_assoc, take_left]
    have second : keptBy s (.protect request) = newer := by rw [keptBy, flushCounts', split, drop_left]
    simp only [flushed, first, second]
  rw [isFlushed]
  constructor
  · rw [perform, mmProtect, if_pos unlock, unlock_eq inv.sound split counts, map_some]
  · refine Invariant.protect rfl ((inv.mono _).flushed older crushed newer split fun block member address covered => ?_) free
    rw [request_covers]
    exact covers_of_inside (inside block member) covered

lemma perform_immediate (request : Request host) :
    let flushed := s.flushed host (flushedBy s (.protectImmediate request)) (keptBy s (.protectImmediate request))
    perform s (.protectImmediate request) =
        some (flushed.protect host request.range.start request.range.length request.prot) ∧
      Invariant initial (calls ++ [.protectImmediate request]) nowhere
        (flushed.protect host request.range.start request.range.length request.prot) := by
  intro flushed
  rw [perform, mmProtectImmediate]
  by_cases conflict : (s.queue.any (·.range.overlaps (startLength request.range.start request.range.length))) = true
  · have isFlushed : flushed = s.flushed host s.queue [] := by
      simp only [flushed, flushedBy, keptBy, flushCounts, conflict, if_true, take_length, drop_length]
    obtain ⟨flush, after⟩ := (inv.mono (request.covers · = true)).flush s.queue [] (append_nil _).symm
    rw [isFlushed]
    simp only [conflict, if_true]
    rw [mmFlush, flush]
    exact ⟨rfl, after.protect rfl (by simp [State.flushed])⟩
  · have isFlushed : flushed = s := by
      simp only [flushed, flushedBy, keptBy, flushCounts, conflict]
      rfl
    rw [isFlushed]
    simp only [conflict]
    refine ⟨rfl, (inv.mono _).protect rfl fun block member => eq_false_iff.mpr fun overlaps => conflict ?_⟩
    exact List.any_eq_true.mpr ⟨block, member, overlaps⟩

lemma perform_invariant (call : Call host) :
    ∃ after, perform s call = some after ∧ Invariant initial (calls ++ [call]) nowhere after := by
  have flushes (silent : call.request = none) :=
    (perform_flush inv call silent).imp fun _ done => And.intro done.1 done.2.1
  cases call with
  | protect request =>
    by_cases unlock : request.prot = .rw ∨ request.prot = .wx
    · exact ⟨_, perform_unlock inv unlock⟩
    · rw [perform, mmProtect, if_neg unlock]
      exact ⟨_, rfl, inv.defer rfl (mmDefer_deferred inv.sound request) _⟩
  | protectImmediate request => exact ⟨_, perform_immediate inv request⟩
  | flush | flushAddress vmAddress | flushRanges ranges | flushPartial lastTag => exact flushes rfl

omit inv in
lemma run_append (s : State) (calls more : List (Call host)) :
    run s (calls ++ more) = (run s calls).bind fun after => run after more := foldlM_append

omit inv in
lemma run_invariant (s : State) (empty : s.queue = []) (calls : List (Call host)) :
    ∃ after, run s calls = some after ∧ Invariant s.pages calls nowhere after := by
  induction calls using List.reverseRecOn with
  | nil =>
    refine ⟨s, rfl, ?_, fun address _ block found => ?_, fun page _ _ => rfl, ?_⟩
    · simp [empty]
    · rw [empty] at found
      cases found
    · rw [empty]
      exact nil_sublist _
  | append_singleton calls call ih =>
    obtain ⟨middle, ran, inv⟩ := ih
    obtain ⟨after, performed, invAfter⟩ := perform_invariant inv call
    refine ⟨after, ?_, invAfter⟩
    rw [run_append, ran]
    simp [run, performed]

lemma flush_settles (silent : call.request = none)
    {after : State} (performed : perform s call = some after) {page : Nat}
    (free : ∀ block ∈ keptBy s call, Sound host block.range -> block.covers (page * host.pageSize) = true ->
      ¬∃ request, lastRequest calls (page * host.pageSize) = some request ∧ (Ordered calls -> block.syncTag ≤ request.tag)) :
    after.pages page = requested initial calls page := by
  obtain ⟨same, done, invAfter, queue⟩ := perform_flush inv call silent
  obtain rfl : same = after := Option.some.inj (done.symm.trans performed)
  have settled := invAfter.settled page id ?_
  · rw [settled, requested, requested, lastRequest_silent silent]
  cases found : latest Block.covers same.queue (page * host.pageSize) with
  | none => rfl
  | some block =>
    obtain ⟨request, last, _, tag⟩ := invAfter.pending _ id block found
    rw [lastRequest_silent silent] at last
    have member : block ∈ same.queue := latest_mem found
    refine absurd ⟨request, last, fun ordered => tag ?_⟩
      (free block (queue ▸ member) (invAfter.sound block member) (latest_covers found))
    rwa [Ordered, requests_append, silent, toList_none, append_nil]

omit inv

lemma Sound.covers_page {range : Range 64} (sound : Sound host range) {address page : Nat}
    (same : address / host.pageSize = page) (covered : covers range (page * host.pageSize) = true) :
    covers range address = true := by
  have low : page * host.pageSize ≤ address := same ▸ Nat.div_mul_le_self address host.pageSize
  have high : address < (page + 1) * host.pageSize := by
    rw [← Nat.div_lt_iff_lt_mul sound.pos]
    omega
  obtain ⟨count, last⟩ := sound.lastAligned
  rw [covers_iff] at covered ⊢
  have below : page < count := by
    refine Nat.lt_of_mul_lt_mul_right (a := host.pageSize) ?_
    rw [mul_comm count, ← last]
    omega
  have bound : (page + 1) * host.pageSize ≤ count * host.pageSize := Nat.mul_le_mul_right _ below
  rw [mul_comm count, ← last] at bound
  omega

lemma overlapsAddress_eq (range : Range 64) (address : Address) :
    range.overlapsAddress address = covers range address.toNat := by
  simp [Range.overlapsAddress, covers, BitVec.le_def]

lemma guestAddress_toNat (host : Host) (vmAddress : BitVec 32) :
    (BitVec.ofNat 64 (host.guestBase + vmAddress.toNat)).toNat = host.guestBase + vmAddress.toNat := by
  have fits := host.fits
  have below := vmAddress.isLt
  rw [BitVec.toNat_ofNat]
  refine Nat.mod_eq_of_lt ?_
  rw [guestSize] at fits
  omega

lemma partial_kept {lastTag : Nat} (sorted : (queue.map (·.syncTag)).Pairwise (· ≤ ·)) {block : Block}
    (member : block ∈ queue.drop (partialCount lastTag queue)) : lastTag < block.syncTag := by
  induction queue with
  | nil => cases member
  | cons first rest ih =>
    rw [map_cons, pairwise_cons] at sorted
    rw [partialCount, takeWhile_cons] at member
    split at member
    next => exact ih sorted.2 member
    next late =>
      have lateTag : lastTag < first.syncTag := by simpa using late
      rcases mem_cons.mp member with rfl | later
      · exact lateTag
      · exact lateTag.trans_le (sorted.1 _ (List.mem_map_of_mem later))

theorem mm_queue_equivalent (s : State) (empty : s.queue = []) (calls : List (Call host)) (ordered : Ordered calls) :
    ∃ last, run s calls = some last ∧
      (∃ after, mmFlush host last = some after ∧ ∀ page, after.pages page = requested s.pages calls page) ∧
      (∀ vmAddress, ∃ after, mmFlushAddress host last vmAddress = some after ∧
        ∀ page, (host.guestBase + vmAddress.toNat) / host.pageSize = page ->
          after.pages page = requested s.pages calls page) ∧
      (∀ ranges, ∃ after, mmFlushRanges host last ranges = some after ∧
        ∀ range ∈ ranges, ∀ address : Address, range.Mem address -> ∀ page, address.toNat / host.pageSize = page ->
          after.pages page = requested s.pages calls page) ∧
      ∀ lastTag, ∃ after, mmFlushPartial host last lastTag = some after ∧
        ∀ page request, lastRequest calls (page * host.pageSize) = some request -> request.tag ≤ lastTag ->
          after.pages page = request.prot := by
  obtain ⟨last, ran, inv⟩ := run_invariant s empty calls
  refine ⟨last, ran, ?_, fun vmAddress => ?_, fun ranges => ?_, fun lastTag => ?_⟩
  · obtain ⟨after, performed, _⟩ := perform_flush inv .flush rfl
    refine ⟨after, performed, fun page => flush_settles inv rfl performed fun block member => ?_⟩
    rw [keptBy, flushCounts, drop_length] at member
    cases member
  · obtain ⟨after, performed, _⟩ := perform_flush inv (.flushAddress vmAddress) rfl
    refine ⟨after, performed, fun page at_ => flush_settles inv rfl performed fun block member sound covered => ?_⟩
    have apart := findConflict_drop member
    rw [overlapsAddress_eq, guestAddress_toNat, sound.covers_page at_ covered] at apart
    cases apart
  · obtain ⟨after, performed, _⟩ := perform_flush inv (.flushRanges ranges) rfl
    refine ⟨after, performed, fun range among address inRange page at_ =>
      flush_settles inv rfl performed fun block member sound covered => ?_⟩
    have apart : (ranges.any fun range => block.range.overlaps range) = false := findConflict_drop member
    have overlaps : block.range.overlaps range = false :=
      eq_false_iff.mpr fun both => eq_false_iff.mp apart (List.any_eq_true.mpr ⟨range, among, both⟩)
    have outside := Sound.overlaps_false overlaps (sound.covers_page at_ covered)
    rw [covers_iff.mpr inRange] at outside
    cases outside
  · obtain ⟨after, performed, _⟩ := perform_flush inv (.flushPartial lastTag) rfl
    refine ⟨after, performed, fun page request found early => ?_⟩
    have settled : after.pages page = requested s.pages calls page := by
      refine flush_settles inv rfl performed fun block member _ _ ⟨other, again, tag⟩ => ?_
      obtain rfl : request = other := Option.some.inj (found.symm.trans again)
      have sorted : (last.queue.map (·.syncTag)).Pairwise (· ≤ ·) :=
        (pairwise_map.mpr ordered).sublist inv.tags
      have late := partial_kept sorted member
      have issued := tag ordered
      omega
    rw [settled, requested, found]
    rfl

def plainHost : Host := ⟨4096, 0, by decide, by decide, by decide⟩

def firstPages : Call plainHost := .protect ⟨⟨0, 0x4000, by decide, by decide, by decide, by decide⟩, .no, 1⟩

def laterPages : Call plainHost := .protect ⟨⟨0x2000, 0x4000, by decide, by decide, by decide, by decide⟩, .ro, 2⟩

theorem mm_queue_equivalent_example : ∃ last, run ⟨fun _ => .rw, fun _ => 0, []⟩ [firstPages, laterPages] = some last ∧
    ∃ after, mmFlushPartial plainHost last 1 = some after ∧ after.pages 1 = .no := by
  obtain ⟨last, ran, _, _, _, settled⟩ :=
    mm_queue_equivalent ⟨fun _ => .rw, fun _ => 0, []⟩ rfl [firstPages, laterPages] (by simp [Ordered, firstPages, laterPages, Call.request])
  obtain ⟨after, flushed, pages⟩ := settled 1
  exact ⟨last, ran, after, flushed, pages 1 _ rfl (by decide)⟩

end EmuCore.Rsx.Mm
