import EmuCore.Rsx.MemoryManagerFlush

namespace EmuCore.Rsx.Mm

open EmuCore.AddressRange Overlay List Option

variable {host : Host}

def guestPages : Nat := 2 ^ 20

def guestAddress (host : Host) (page : Nat) : Nat := host.guestBase + page * guestPage

structure InGuest (host : Host) (range : Range 64) : Prop where
  start : host.guestBase ≤ range.start.toNat
  last : range.last.toNat < host.guestBase + guestSize

lemma pages_between {size first count page : Nat} (pos : 0 < size) (nonempty : 0 < size * count) :
    size * first / size ≤ page ∧ page ≤ (size * count - 1) / size ↔
      size * first ≤ page * size ∧ page * size < size * count := by
  rw [Nat.mul_div_cancel_left _ pos, Nat.le_div_iff_mul_le pos, mul_comm page, Nat.mul_le_mul_left_iff pos]
  omega

lemma track_page {range : Range 64} (sound : Sound host range) (guest : InGuest host range) (prot : Protection)
    (mirror : Nat -> UInt8) (page : Nat) :
    mmTrackProtection host range.start (length range) prot mirror page =
      if covers range (guestAddress host page) then prot.toByte else mirror page := by
  have valid := sound.valid
  have size := sound.length
  obtain ⟨start, last⟩ := guest
  have present : length range ≠ 0 := fun zero => by
    rw [zero, show (0 : Address).toNat = 0 from rfl] at size
    omega
  obtain ⟨first, firstPage⟩ : guestPage ∣ range.start.toNat - host.guestBase :=
    Nat.dvd_sub (host.pages.trans sound.startAligned) (host.pages.trans host.aligned)
  obtain ⟨count, lastPage⟩ : guestPage ∣ range.last.toNat + 1 - host.guestBase :=
    Nat.dvd_sub (host.pages.trans sound.lastAligned) (host.pages.trans host.aligned)
  have finish : min (range.start.toNat - host.guestBase + (length range).toNat) guestSize = guestPage * count := by
    rw [← lastPage, size]
    generalize guestSize = bound at last
    omega
  have within : ¬(range.start.toNat < host.guestBase ∨ host.guestBase + guestSize ≤ range.start.toNat) := by
    generalize guestSize = bound at last
    omega
  rw [mmTrackProtection, if_neg present, if_neg within]
  simp only [finish]
  simp only [firstPage]
  refine if_congr ?_ rfl rfl
  rw [pages_between (by decide) (by omega), covers_iff, guestAddress, ← firstPage, ← lastPage]
  omega

lemma foldl_track {blocks : List Block} (sound : ∀ block ∈ blocks, Sound host block.range)
    (guest : ∀ block ∈ blocks, InGuest host block.range) (mirror : Nat -> UInt8) (page : Nat) :
    blocks.foldl (fun mirror block => mmTrackProtection host block.range.start (length block.range) block.prot mirror)
        mirror page =
      ((latest Block.covers blocks (guestAddress host page)).map (·.prot.toByte)).getD (mirror page) := by
  have same := foldl_ext _ (update (fun block page => block.covers (guestAddress host page)) (·.prot.toByte)) mirror
    fun mirror block member => funext (track_page (sound block member) (guest block member) block.prot mirror)
  rw [same, foldl_update]
  rfl

lemma merge_guest {block : Block} {other : Range 64} (guest : InGuest host block.range)
    (otherGuest : InGuest host other) : InGuest host (block.merge other).range := by
  obtain ⟨low, high⟩ := merge_bounds block other
  have start := guest.start
  have last := guest.last
  have otherStart := otherGuest.start
  have otherLast := otherGuest.last
  refine ⟨?_, ?_⟩
  · rw [low]
    omega
  · rw [high]
    omega

lemma mmMerge_guest {range : Range 64} (rangeGuest : InGuest host range) (prot : Protection) {blocks : List Block}
    (guest : ∀ block ∈ blocks, InGuest host block.range) :
    ∀ block ∈ (mmMerge range prot blocks).blocks, block.range.valid = true -> InGuest host block.range := by
  fun_induction mmMerge range prot blocks with
  | case1 => simp
  | case2 first older _ ih | case4 first older _ _ _ _ ih =>
    obtain ⟨firstGuest, olderGuest⟩ := forall_mem_cons.mp guest
    exact forall_mem_cons.mpr ⟨fun _ => firstGuest, ih olderGuest⟩
  | case3 first older _ _ _ _ ih =>
    refine forall_mem_cons.mpr ⟨fun valid => ?_, ih (forall_mem_cons.mp guest).2⟩
    rw [Block.invalidate, invalidated_invalid (by omega)] at valid
    cases valid
  | case5 => exact fun block member _ => guest block member
  | case6 first older =>
    obtain ⟨firstGuest, olderGuest⟩ := forall_mem_cons.mp guest
    exact forall_mem_cons.mpr ⟨fun _ => merge_guest firstGuest rangeGuest, fun block member _ => olderGuest block member⟩

def Request.InGuest (request : Request host) : Prop :=
  Mm.InGuest host (startLength request.range.start request.range.length)

variable {request : Request host}

lemma mmDefer_guest {queue : List Block} (guest : ∀ block ∈ queue, InGuest host block.range)
    (requestGuest : request.InGuest) {block : Block}
    (member : block ∈ mmDeferMprotect queue request.range.start request.range.length request.prot request.tag)
    (valid : block.range.valid = true) : InGuest host block.range := by
  have scanned := mmMerge_guest requestGuest request.prot fun block member => guest block (mem_reverse.mp member)
  simp only [mmDeferMprotect] at member
  generalize mmMerge _ request.prot queue.reverse = scan at member scanned
  have sanitized : ∀ block ∈ if scan.hasInvalid then mmSanitizeQueue scan.blocks.reverse else scan.blocks.reverse,
      block.range.valid = true -> InGuest host block.range := by
    intro block member valid
    split at member
    next => exact scanned block (mem_reverse.mp (mem_of_mem_filter member)) valid
    next => exact scanned block (mem_reverse.mp member) valid
  split at member
  next => exact sanitized block member valid
  rcases mem_append.mp member with old | new
  · exact sanitized block old valid
  · rw [mem_singleton.mp new]
    exact requestGuest

def Call.InGuest (call : Call host) : Prop := ∀ request ∈ call.request, request.InGuest

variable {initial : Nat -> Protection} {calls : List (Call host)} {s : State}

structure Shown (s : State) (call : Call host) (after : State) : Prop where
  guest : ∀ block ∈ after.queue, InGuest host block.range
  own : ∀ page request, call.request = some request -> request.covers (guestAddress host page) = true ->
    after.mirror page = request.prot.toByte
  other : ∀ page, (∀ request ∈ call.request, request.covers (guestAddress host page) = false) ->
    after.mirror page =
      ((latest Block.covers (flushedBy s call) (guestAddress host page)).map (·.prot.toByte)).getD (s.mirror page)

lemma request_track (guest : request.InGuest) (mirror : Nat -> UInt8) (page : Nat) :
    mmTrackProtection host request.range.start request.range.length request.prot mirror page =
      if request.covers (guestAddress host page) then request.prot.toByte else mirror page := by
  have same := track_page request.range.sound guest request.prot mirror page
  rw [request.range.length_eq, (range_last request.range).1] at same
  rw [request_covers]
  exact same

variable {call : Call host}

lemma Shown.protect (asks : call.request = some request) (requestGuest : request.InGuest)
    (inv : Invariant initial calls nowhere s) (guest : ∀ block ∈ s.queue, InGuest host block.range) :
    Shown s call ((s.flushed host (flushedBy s call) (keptBy s call)).protect host request.range.start
      request.range.length request.prot) := by
  constructor
  case guest => exact fun block member => guest block (mem_of_mem_drop member)
  case own =>
    intro page own same covered
    obtain rfl : request = own := some.inj (asks.symm.trans same)
    exact (request_track requestGuest _ page).trans (if_pos covered)
  case other =>
    intro page apart
    have outside := apart request asks
    refine (request_track requestGuest _ page).trans ?_
    rw [outside]
    exact foldl_track (fun block member => inv.sound block (mem_of_mem_take member))
      (fun block member => guest block (mem_of_mem_take member)) s.mirror page

variable {after : State}

lemma perform_shown (inv : Invariant initial calls nowhere s) (guest : ∀ block ∈ s.queue, InGuest host block.range)
    (callGuest : call.InGuest) (performed : perform s call = some after) :
    Shown s call after := by
  cases asks : call.request with
  | none =>
    obtain rfl : _ = after := some.inj ((perform_silent inv asks).symm.trans performed)
    refine ⟨fun block member => guest block (mem_of_mem_drop member), fun _ _ same => ?_, fun page _ => ?_⟩
    · rw [asks] at same
      cases same
    · exact foldl_track (fun block member => inv.sound block (mem_of_mem_take member))
        (fun block member => guest block (mem_of_mem_take member)) s.mirror page
  | some request =>
    have requestGuest := callGuest request asks
    cases call with
    | protect own =>
      obtain rfl : own = request := some.inj asks
      by_cases unlock : own.prot = .rw ∨ own.prot = .wx
      · obtain rfl := some.inj ((perform_unlock inv unlock).1.symm.trans performed)
        exact .protect rfl requestGuest inv guest
      have deferred := mmDefer_deferred inv.sound own
      rw [perform, mmProtect, if_neg unlock] at performed
      cases performed
      have nothing : flushedBy s (.protect own) = [] := by rw [flushedBy, flushCounts, if_neg unlock]; rfl
      refine ⟨fun block member => mmDefer_guest guest requestGuest member (deferred.sound block member).isValid, ?_, ?_⟩
      · intro page request same covered
        cases same
        exact (request_track requestGuest _ page).trans (if_pos covered)
      intro page apart
      have outside := apart own rfl
      rw [nothing, latest_nil]
      refine (request_track requestGuest _ page).trans ?_
      rw [outside]
      rfl
    | protectImmediate own =>
      obtain rfl : own = request := some.inj asks
      obtain rfl := some.inj ((perform_immediate inv own).1.symm.trans performed)
      exact .protect rfl requestGuest inv guest
    | flush | flushAddress vmAddress | flushRanges ranges | flushPartial lastTag => cases asks

lemma queue_parts (s : State) (call : Call host) :
    ∃ crushed, s.queue = flushedBy s call ++ crushed ++ keptBy s call ∧ ∀ block ∈ crushed, ∀ address,
      block.covers address = true -> ∃ request ∈ call.request, request.covers address = true := by
  have none (same : (flushCounts s call).1 = (flushCounts s call).2) :
      ∃ crushed, s.queue = flushedBy s call ++ crushed ++ keptBy s call ∧ ∀ block ∈ crushed, ∀ address,
        block.covers address = true -> ∃ request ∈ call.request, request.covers address = true :=
    ⟨[], by rw [append_nil, flushedBy, keptBy, same, take_append_drop], by simp⟩
  cases call with
  | protect request =>
    by_cases unlock : request.prot = .rw ∨ request.prot = .wx
    · obtain ⟨older, crushed, newer, split, counts, inside, _⟩ :=
        unlock_split s.queue (startLength request.range.start request.range.length)
      refine ⟨crushed, ?_, fun block member address covered => ⟨request, rfl, ?_⟩⟩
      · rw [flushedBy, keptBy, flushCounts, if_pos unlock, counts, split, drop_left, append_assoc older,
          take_left, append_assoc]
      · rw [request_covers]
        exact covers_of_inside (inside block member) covered
    · exact none (by rw [flushCounts, if_neg unlock])
  | protectImmediate request =>
    refine none ?_
    rw [flushCounts]
    split <;> rfl
  | flush | flushAddress vmAddress | flushRanges ranges | flushPartial lastTag => exact none rfl

def Splits (s : State) (call : Call host) : Prop :=
  ∃ page < guestPages, ∃ flushed kept,
    latest Block.covers (flushedBy s call) (guestAddress host page) = some flushed ∧
    latest Block.covers (keptBy s call) (guestAddress host page) = some kept ∧ flushed.prot ≠ kept.prot ∧
    ∀ request ∈ call.request, request.covers (guestAddress host page) = false

def scheduled (mirror : Nat -> UInt8) (calls : List (Call host)) (page : Nat) : UInt8 :=
  ((lastRequest calls (guestAddress host page)).map (·.prot.toByte)).getD (mirror page)

lemma toByte_injective {first second : Protection} (same : first.toByte = second.toByte) : first = second := by
  cases first <;> cases second <;> first | rfl | cases same

lemma lastRequest_other {address : Nat} (apart : ∀ request ∈ call.request, request.covers address = false) :
    lastRequest (calls ++ [call]) address = lastRequest calls address := by
  cases asks : call.request with
  | none => exact lastRequest_silent asks address
  | some request => rw [lastRequest_append asks, apart request asks]; rfl

lemma latest_parts (s : State) {address : Nat} (apart : ∀ request ∈ call.request, request.covers address = false) :
    latest Block.covers s.queue address = (latest Block.covers (keptBy s call) address).or
      (latest Block.covers (flushedBy s call) address) := by
  obtain ⟨crushed, split, inside⟩ := queue_parts s call
  have gone : latest Block.covers crushed address = none := latest_eq_none fun block member =>
    Bool.eq_false_iff.mpr fun covered => by
      obtain ⟨request, asks, within⟩ := inside block member address covered
      exact Bool.eq_false_iff.mp (apart request asks) within
  have whole := congrArg (latest Block.covers · address) split
  simp only [latest_append, gone, none_or] at whole
  exact whole

section

variable (inv : Invariant initial calls nowhere s) (shown : Shown s call after)

include inv shown

lemma Shown.scheduled
    (whole : ¬Splits s call) {mirror : Nat -> UInt8}
    (same : ∀ page < guestPages, s.mirror page = scheduled mirror calls page) :
    ∀ page < guestPages, after.mirror page = Mm.scheduled mirror (calls ++ [call]) page := by
  intro page inside
  by_cases apart : ∀ request ∈ call.request, request.covers (guestAddress host page) = false
  · rw [shown.other page apart, Mm.scheduled, lastRequest_other apart]
    cases found : latest Block.covers (flushedBy s call) (guestAddress host page) with
    | none => exact same page inside
    | some flushed =>
      have parts := latest_parts s apart
      cases later : latest Block.covers (keptBy s call) (guestAddress host page) with
      | none =>
        rw [found, later, none_or] at parts
        obtain ⟨request, last, prot, _⟩ := inv.pending _ id flushed parts
        rw [last, map_some, map_some, prot]
        rfl
      | some kept =>
        rw [found, later, some_or] at parts
        obtain ⟨request, last, prot, _⟩ := inv.pending _ id kept parts
        have agree : flushed.prot = kept.prot := by
          by_contra differ
          exact whole ⟨page, inside, flushed, kept, found, later, differ, apart⟩
        rw [last, map_some, map_some, agree, prot]
        rfl
  · push Not at apart
    obtain ⟨request, asks, covered⟩ := apart
    have covered : request.covers (guestAddress host page) = true := by simpa using covered
    rw [shown.own page request asks covered, Mm.scheduled, lastRequest_append asks, covered]
    rfl

lemma Shown.split (splits : Splits s call)
    (mirror : Nat -> UInt8) :
    ∃ page < guestPages, after.mirror page ≠ Mm.scheduled mirror (calls ++ [call]) page := by
  obtain ⟨page, inside, flushed, kept, found, later, differ, apart⟩ := splits
  refine ⟨page, inside, fun same => differ (toByte_injective ?_)⟩
  have parts := latest_parts s apart
  rw [found, later, some_or] at parts
  obtain ⟨request, last, prot, _⟩ := inv.pending _ id kept parts
  rw [shown.other page apart, found, Mm.scheduled, lastRequest_other apart, last] at same
  rw [prot]
  exact same

end

lemma run_guest (s : State) (empty : s.queue = []) {calls : List (Call host)}
    (guest : ∀ call ∈ calls, call.InGuest) {last : State} (ran : run s calls = some last) :
    ∀ block ∈ last.queue, InGuest host block.range := by
  induction calls using List.reverseRecOn generalizing last with
  | nil =>
    cases ran
    simp [empty]
  | append_singleton calls call ih =>
    obtain ⟨middle, before, inv⟩ := run_invariant s empty calls
    rw [run_append, before] at ran
    have performed : perform middle call = some last := by simpa [run] using ran
    have middleGuest := ih (fun call member => guest call (mem_append_left _ member)) before
    exact (perform_shown inv middleGuest (guest call (by simp)) performed).guest

theorem mirror_shows_last_iff (s : State) (empty : s.queue = []) (calls : List (Call host))
    (guest : ∀ call ∈ calls, call.InGuest) :
    (∀ done left, calls = done ++ left -> ∀ last, run s done = some last ->
      ∀ page < guestPages, last.mirror page = scheduled s.mirror done page) ↔
    ∀ done call left, calls = done ++ call :: left -> ∀ last, run s done = some last -> ¬Splits last call := by
  have shown {done : List (Call host)} {call : Call host} {left : List (Call host)} (split : calls = done ++ call :: left)
      {last : State} (ran : run s done = some last) : ∃ after, run s (done ++ [call]) = some after ∧
        Invariant s.pages done nowhere last ∧ Shown last call after := by
    obtain ⟨same, again, inv⟩ := run_invariant s empty done
    obtain rfl : same = last := some.inj (again.symm.trans ran)
    obtain ⟨after, performed, _⟩ := perform_invariant inv call
    have doneGuest := run_guest s empty (fun call member => guest call (by simp [split, member])) ran
    refine ⟨after, ?_, inv, perform_shown inv doneGuest (guest call (by simp [split])) performed⟩
    rw [run_append, ran]
    simp [run, performed]
  constructor
  · intro always done call left split last ran splits
    obtain ⟨after, next, inv, step⟩ := shown split ran
    obtain ⟨page, inside, differs⟩ := step.split inv splits s.mirror
    exact differs (always (done ++ [call]) left (by rw [split, append_assoc]; rfl) after next page inside)
  intro never done
  induction done using List.reverseRecOn with
  | nil =>
    intro left _ last ran page _
    cases ran
    rfl
  | append_singleton done call ih =>
    intro left split last ran
    have split : calls = done ++ call :: left := by rw [split, append_assoc]; rfl
    obtain ⟨middle, before, _⟩ := run_invariant s empty done
    obtain ⟨after, next, inv, step⟩ := shown split before
    obtain rfl : after = last := some.inj (next.symm.trans ran)
    exact step.scheduled inv (never done call left split middle before) (ih (call :: left) split middle before)

def exampleHost : Host := ⟨4096, 0, plainHost.pages, plainHost.aligned, plainHost.fits⟩

lemma block_nonempty : 0 < (0x4000 : Address).toNat := by decide

lemma lower_fits : (0 : Address).toNat + (0x4000 : Address).toNat < 2 ^ 64 := by decide

lemma upper_fits : (0x2000 : Address).toNat + (0x4000 : Address).toNat < 2 ^ 64 := by decide

def noAccess : Request exampleHost :=
  ⟨⟨0, 0x4000, by decide, by decide, block_nonempty, lower_fits⟩, .no, 0⟩

def readOnly : Request exampleHost :=
  ⟨⟨0x2000, 0x4000, by decide, by decide, block_nonempty, upper_fits⟩, .ro, 0⟩

def exampleState : State := ⟨fun _ => .rw, fun _ => 0, []⟩

theorem mirror_hides_last : ((run exampleState [.protect noAccess, .protect readOnly, .flushAddress 0]).map
      fun last => (last.mirror 2, mmIsAccessible last 0x2000 false)) = some (Protection.no.toByte, false) ∧
    (lastRequest [.protect noAccess, .protect readOnly, .flushAddress 0] (guestAddress exampleHost 2)).map (·.prot) =
      some .ro := by
  constructor
  · decide +kernel
  · decide +kernel

def overlapping : List (Call exampleHost) := [.protect noAccess, .protect readOnly, .flushAddress 0]

theorem mirror_shows_last_overlapping : ∃ done call left, overlapping = done ++ call :: left ∧
    ∃ last, run exampleState done = some last ∧ Splits last call := by
  have guest : ∀ call ∈ overlapping, call.InGuest := by
    intro call member request asks
    rcases mem_cons.mp member with rfl | member
    · cases asks
      exact ⟨by decide, by decide⟩
    rcases mem_cons.mp member with rfl | member
    · cases asks
      exact ⟨by decide, by decide⟩
    · obtain rfl := mem_singleton.mp member
      cases asks
  obtain ⟨last, ran, _⟩ := run_invariant exampleState rfl overlapping
  have shows : last.mirror 2 = 2 := by
    have mirror := congrArg (Option.map (·.mirror 2)) ran
    rw [show (run exampleState overlapping).map (·.mirror 2) = some 2 by decide +kernel] at mirror
    exact (some.inj mirror).symm
  have expected : scheduled exampleState.mirror overlapping 2 = 1 := by decide +kernel
  by_contra never
  push Not at never
  have always := (mirror_shows_last_iff exampleState rfl overlapping guest).mpr never
  have same := always overlapping [] rfl last ran 2 (by decide)
  rw [shows, expected] at same
  exact absurd same (by decide)

end EmuCore.Rsx.Mm
