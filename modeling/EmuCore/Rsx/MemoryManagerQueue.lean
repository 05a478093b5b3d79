import EmuCore.Rsx.MemoryManager

namespace EmuCore.Rsx.Mm

open EmuCore.AddressRange Overlay List Bool BitVec Nat

variable {host : Host}

def covers (range : Range 64) (address : Nat) : Bool :=
  decide (range.start.toNat ≤ address) && decide (address ≤ range.last.toNat)

def Block.covers (block : Block) (address : Nat) : Bool := Mm.covers block.range address

structure Sound (host : Host) (range : Range 64) : Prop where
  valid : range.start.toNat ≤ range.last.toNat
  startAligned : host.pageSize ∣ range.start.toNat
  lastAligned : host.pageSize ∣ range.last.toNat + 1
  fits : range.last.toNat + 1 < 2 ^ 64

variable {range : Range 64} {address : Nat}

lemma covers_iff :
    covers range address = true ↔ range.start.toNat ≤ address ∧ address ≤ range.last.toNat := by
  simp [covers]

lemma Sound.isValid (sound : Sound host range) : range.valid = true :=
  (valid_iff range).mpr sound.valid

lemma Sound.pos (sound : Sound host range) : 0 < host.pageSize := by
  refine pos_of_ne_zero fun zero => ?_
  have divides := sound.lastAligned
  rw [zero, Nat.zero_dvd] at divides
  omega

lemma Sound.length (sound : Sound host range) :
    (length range).toNat = range.last.toNat - range.start.toNat + 1 := by
  have valid := sound.valid
  have fits := sound.fits
  have difference : (range.last - range.start).toNat = range.last.toNat - range.start.toNat :=
    toNat_sub_of_le valid
  rw [Mm.length, toNat_add, difference]
  exact mod_eq_of_lt (by simpa using by omega)

lemma range_last (range : PageRange host) :
    (startLength range.start range.length).start = range.start ∧
      (startLength range.start range.length).last.toNat = range.start.toNat + range.length.toNat - 1 := by
  have nonempty := range.nonempty
  have fits := range.fits
  have present : range.length ≠ 0 := fun zero => by simp [zero] at nonempty
  rw [startLength, if_neg present]
  refine ⟨rfl, ?_⟩
  have sum : (range.start + range.length).toNat = range.start.toNat + range.length.toNat := by
    rw [toNat_add]
    exact mod_eq_of_lt fits
  have one : (1 : Address).toNat = 1 := rfl
  have below : (1 : Address) ≤ range.start + range.length := by
    rw [le_def, sum, one]
    omega
  rw [toNat_sub_of_le below, sum, one]

lemma PageRange.sound (range : PageRange host) : Sound host (startLength range.start range.length) := by
  obtain ⟨start, last⟩ := range_last range
  have nonempty := range.nonempty
  have fits := range.fits
  refine ⟨?_, ?_, ?_, ?_⟩
  · rw [start, last]
    omega
  · rw [start]
    exact range.startAligned
  · rw [last, Nat.sub_add_cancel (by omega)]
    exact dvd_add range.startAligned range.lengthAligned
  · rw [last]
    omega

lemma PageRange.length_eq (range : PageRange host) :
    Mm.length (startLength range.start range.length) = range.length := by
  obtain ⟨start, last⟩ := range_last range
  have nonempty := range.nonempty
  apply eq_of_toNat_eq
  rw [range.sound.length, start, last]
  omega

lemma request_covers (request : Request host) (address : Nat) :
    request.covers address = covers (startLength request.range.start request.range.length) address := by
  obtain ⟨start, last⟩ := range_last request.range
  have nonempty := request.range.nonempty
  rw [Bool.eq_iff_iff, covers_iff, start, last]
  simp only [Request.covers, and_eq_true, decide_eq_true_eq]
  omega

lemma memoryProtect_page (sound : Sound host range) (prot : Protection) (pages : Nat -> Protection) (page : Nat) :
    memoryProtect host range.start (length range) prot pages page =
      if covers range (page * host.pageSize) then prot else pages page := by
  have valid := sound.valid
  have low : range.start.toNat / host.pageSize ≤ page ↔ range.start.toNat ≤ page * host.pageSize := by
    obtain ⟨first, same⟩ := sound.startAligned
    rw [same, Nat.mul_div_cancel_left _ sound.pos, mul_comm page]
    exact (Nat.mul_le_mul_left_iff sound.pos).symm
  rw [memoryProtect]
  refine if_congr ?_ rfl rfl
  rw [low, sound.length, covers_iff]
  omega

def State.flushed (host : Host) (s : State) (blocks queue : List Block) : State where
  pages := blocks.foldl (fun pages block =>
    memoryProtect host block.range.start (length block.range) block.prot pages) s.pages
  mirror := blocks.foldl (fun mirror block =>
    mmTrackProtection host block.range.start (length block.range) block.prot mirror) s.mirror
  queue := queue

lemma foldl_protect (blocks : List Block) (s : State) :
    blocks.foldl (fun s block => s.protect host block.range.start (length block.range) block.prot) s =
      s.flushed host blocks s.queue := by
  induction blocks generalizing s with
  | nil => rfl
  | cons block rest ih => rw [foldl_cons, ih]; rfl

variable {blocks : List Block}

lemma foldl_memoryProtect (sound : ∀ block ∈ blocks, Sound host block.range) (pages : Nat -> Protection) (page : Nat) :
    blocks.foldl (fun pages block => memoryProtect host block.range.start (length block.range) block.prot pages)
        pages page =
      ((latest Block.covers blocks (page * host.pageSize)).map (·.prot)).getD (pages page) := by
  have same := foldl_ext _ (update (fun block page => block.covers (page * host.pageSize)) Block.prot) pages
    fun pages block member => funext (memoryProtect_page (sound block member) block.prot pages)
  rw [same, foldl_update]
  rfl

lemma sanitize_sound (sound : ∀ block ∈ blocks, Sound host block.range) :
    mmSanitizeQueue blocks = blocks := filter_eq_self.mpr fun block member => (sound block member).isValid

lemma sanitize_invalidated (blocks rest : List Block) :
    mmSanitizeQueue (blocks.map Block.invalidate ++ rest) = mmSanitizeQueue rest := by
  have none : (blocks.map Block.invalidate).filter (·.range.valid) = [] := by
    rw [filter_eq_nil_iff]
    intro block member
    obtain ⟨old, _, rfl⟩ := mem_map.mp member
    rw [Block.invalidate, invalidated_invalid (by omega)]
    exact false_ne_true
  rw [mmSanitizeQueue, filter_append, none, nil_append]
  rfl

lemma flush_eq {s : State} {rest : List Block} (split : s.queue = blocks ++ rest)
    (sound : ∀ block ∈ blocks, Sound host block.range) :
    mmFlushMprotectQueue host s blocks.length = some (s.flushed host blocks (mmSanitizeQueue rest)) := by
  have taken : s.queue.take blocks.length = blocks := by rw [split, take_left]
  have left : s.queue.drop blocks.length = rest := by rw [split, drop_left]
  have valid : (blocks.all fun block => block.range.valid) = true :=
    all_eq_true.mpr fun block member => (sound block member).isValid
  simp only [mmFlushMprotectQueue, taken, left]
  rw [if_pos valid, foldl_protect, sanitize_invalidated]
  refine congrArg some (congrArg (State.flushed host s blocks) ?_)
  split
  next none =>
    have empty : rest = [] := by
      rw [split, length_append] at none
      exact length_eq_zero_iff.mp (by omega)
    rw [empty]
    rfl
  next => rfl

lemma findConflict_split (predicate : Block -> Bool) (queue : List Block) :
    ∃ older newer, queue = older ++ newer ∧ older.length = mmFindConflict predicate queue ∧
      ∀ block ∈ newer, predicate block = false := by
  let free := fun block : Block => !predicate block
  refine ⟨(queue.reverse.dropWhile free).reverse, (queue.reverse.takeWhile free).reverse, ?_, ?_, ?_⟩
  · rw [← List.reverse_append, takeWhile_append_dropWhile, reverse_reverse]
  · rw [length_reverse]
    rfl
  · intro block member
    have all := all_takeWhile (p := free) (l := queue.reverse)
    simpa [free] using all_eq_true.mp all block (mem_reverse.mp member)

lemma unlock_split (queue : List Block) (range : Range 64) :
    ∃ older crushed newer, queue = older ++ crushed ++ newer ∧
      unlockCounts queue range = (older.length, (older ++ crushed).length) ∧
      (∀ block ∈ crushed, inside block.range range = true) ∧
      ∀ block ∈ newer, block.range.overlaps range = false := by
  obtain ⟨front, newer, split, count, apart⟩ := findConflict_split (·.range.overlaps range) queue
  let within := fun block : Block => inside block.range range
  have parts : front = (front.reverse.dropWhile within).reverse ++ (front.reverse.takeWhile within).reverse := by
    rw [← List.reverse_append, takeWhile_append_dropWhile, reverse_reverse]
  have taken : queue.take front.length = front := by rw [split, take_left]
  refine ⟨(front.reverse.dropWhile within).reverse, (front.reverse.takeWhile within).reverse, newer, ?_, ?_, ?_, apart⟩
  · rw [← parts, split]
  · have lengths := congrArg List.length parts
    rw [length_append, length_reverse, length_reverse] at lengths
    simp only [unlockCounts, ← count, taken, ← parts, length_reverse]
    refine Prod.ext ?_ rfl
    simp only [within] at lengths ⊢
    omega
  · intro block member
    have all := all_takeWhile (p := within) (l := front.reverse)
    exact all_eq_true.mp all block (mem_reverse.mp member)

variable {older : List Block}

lemma unlock_eq {s : State} (sound : ∀ block ∈ s.queue, Sound host block.range) {crushed newer : List Block}
    (split : s.queue = older ++ crushed ++ newer)
    (counts : unlockCounts s.queue range = (older.length, (older ++ crushed).length)) :
    mmUnlock host s range = some (s.flushed host older newer) := by
  have soundOlder : ∀ block ∈ older, Sound host block.range := fun block member => sound block (by simp [split, member])
  have soundNewer : ∀ block ∈ newer, Sound host block.range := fun block member => sound block (by simp [split, member])
  have takenOlder : s.queue.take older.length = older := by rw [split, List.append_assoc, take_left]
  have taken : s.queue.take (older ++ crushed).length = older ++ crushed := by rw [split, take_left]
  have left : s.queue.drop (older ++ crushed).length = newer := by rw [split, drop_left]
  simp only [mmUnlock, counts, takenOlder, taken, left, drop_left]
  split
  next zero =>
    obtain ⟨rfl, rfl⟩ := append_eq_nil_iff.mp (length_eq_zero_iff.mp zero)
    have same : s.queue = newer := split
    rw [← same]
    rfl
  next =>
    rw [List.append_assoc]
    split
    next =>
      rw [flush_eq rfl soundOlder, sanitize_invalidated, sanitize_sound soundNewer]
      rfl
    next zero =>
      obtain rfl := length_eq_zero_iff.mp (not_not.mp zero)
      rw [nil_append, sanitize_invalidated, sanitize_sound soundNewer]
      rfl

variable {other : Range 64}

lemma Sound.overlaps_false (apart : range.overlaps other = false) (covered : covers range address = true) :
    covers other address = false := by
  rw [covers_iff] at covered
  rw [eq_false_iff, Ne, covers_iff]
  intro both
  rw [Range.overlaps, eq_false_iff] at apart
  refine apart ?_
  rw [and_eq_true, decide_eq_true_eq, decide_eq_true_eq, le_def, le_def]
  omega

lemma covers_of_inside (within : inside range other = true) (covered : covers range address = true) :
    covers other address = true := by
  rw [covers_iff] at covered ⊢
  rw [inside, and_eq_true, decide_eq_true_eq, decide_eq_true_eq, le_def, le_def] at within
  omega

lemma touches_adjoins (sound : Sound host range) (otherSound : Sound host other)
    (touch : range.touches other = true) : range.Adjoins other := by
  have notTop {range : Range 64} (sound : Sound host range) : range.last ≠ AddressRange.umax := fun top => by
    have fits := sound.fits
    rw [(umax_iff range.last).mp top] at fits
    omega
  rcases (touches_iff (by omega) sound.isValid otherSound.isValid).mp touch with adjoins | wraps | wraps
  · exact adjoins
  · exact absurd wraps.1 (notTop sound)
  · exact absurd wraps.1 (notTop otherSound)

lemma merge_bounds (block : Block) (other : Range 64) :
    (block.merge other).range.start.toNat = min block.range.start.toNat other.start.toNat ∧
      (block.merge other).range.last.toNat = max block.range.last.toNat other.last.toNat :=
  ⟨smaller_toNat _ _, larger_toNat _ _⟩

variable {block : Block}

lemma merge_covers (adjoins : block.range.Adjoins other) (sound : Sound host block.range)
    (otherSound : Sound host other) (address : Nat) :
    (block.merge other).covers address = (block.covers address || covers other address) := by
  obtain ⟨low, high⟩ := merge_bounds block other
  obtain ⟨left, right⟩ := adjoins
  have valid := sound.valid
  have otherValid := otherSound.valid
  rw [Bool.eq_iff_iff, or_eq_true, Block.covers, Block.covers, covers_iff, covers_iff, covers_iff, low, high]
  omega

lemma merge_sound (sound : Sound host block.range) (otherSound : Sound host other) :
    Sound host (block.merge other).range := by
  obtain ⟨low, high⟩ := merge_bounds block other
  have valid := sound.valid
  refine ⟨?_, ?_, ?_, ?_⟩
  · rw [low, high]
    omega
  · rw [low]
    rcases le_total block.range.start.toNat other.start.toNat with less | less
    · rw [min_eq_left less]
      exact sound.startAligned
    · rw [min_eq_right less]
      exact otherSound.startAligned
  · rw [high]
    rcases le_total block.range.last.toNat other.last.toNat with less | less
    · rw [max_eq_right less]
      exact otherSound.lastAligned
    · rw [max_eq_left less]
      exact sound.lastAligned
  · have fits := sound.fits
    have otherFits := otherSound.fits
    rw [high]
    omega

def Block.key (block : Block) : Protection × Nat := (block.prot, block.syncTag)

def newest (blocks : List Block) (address : Nat) : Option (Protection × Nat) :=
  (blocks.find? (·.covers address)).map Block.key

lemma newest_cons (block : Block) (older : List Block) (address : Nat) :
    newest (block :: older) address = if block.covers address then some block.key else newest older address := by
  rw [newest, find?_cons]
  cases block.covers address <;> rfl

structure Merged (host : Host) (range : Range 64) (prot : Protection) (blocks : List Block) (scan : Scan) : Prop where
  sound : ∀ block ∈ mmSanitizeQueue scan.blocks, Sound host block.range
  clean : scan.hasInvalid = false -> mmSanitizeQueue scan.blocks = scan.blocks
  outside : ∀ address, covers range address = false ->
    newest (mmSanitizeQueue scan.blocks) address = newest blocks address
  within : scan.isMerged = true -> ∀ address, covers range address = true ->
    ∃ tag, newest (mmSanitizeQueue scan.blocks) address = some (prot, tag)
  tags : ((mmSanitizeQueue scan.blocks).map (·.syncTag)).Sublist (blocks.map (·.syncTag))

lemma sanitize_cons (valid : block.range.valid = true) (rest : List Block) :
    mmSanitizeQueue (block :: rest) = block :: mmSanitizeQueue rest := filter_cons_of_pos valid

section

variable {prot : Protection} {scan : Scan} (merged : Merged host range prot older scan)

include merged

lemma Merged.keep
    (sound : Sound host block.range) (apart : block.range.overlaps range = false) :
    Merged host range prot (block :: older) (scan.keep block) := by
  have blocks : mmSanitizeQueue (scan.keep block).blocks = block :: mmSanitizeQueue scan.blocks :=
    sanitize_cons sound.isValid scan.blocks
  constructor
  case sound =>
    rw [blocks]
    exact forall_mem_cons.mpr ⟨sound, merged.sound⟩
  case clean =>
    intro none
    rw [blocks, merged.clean none]
    rfl
  case outside =>
    intro address free
    rw [blocks, newest_cons, newest_cons, merged.outside address free]
  case within =>
    intro isMerged address covered
    obtain ⟨tag, found⟩ := merged.within isMerged address covered
    have free : block.covers address = false := eq_false_iff.mpr fun both =>
      eq_false_iff.mp (Sound.overlaps_false apart both) covered
    refine ⟨tag, ?_⟩
    rw [blocks, newest_cons, free, found]
    rfl
  case tags =>
    rw [blocks]
    exact merged.tags.cons_cons _

lemma Merged.drop
    (swallowed : inside block.range range = true) :
    Merged host range prot (block :: older) { scan.keep block.invalidate with hasInvalid := true } := by
  have blocks : mmSanitizeQueue (block.invalidate :: scan.blocks) = mmSanitizeQueue scan.blocks :=
    sanitize_invalidated [block] scan.blocks
  constructor
  case sound => exact fun other member => merged.sound other (blocks ▸ member)
  case clean => exact fun none => absurd none true_eq_false.mp
  case outside =>
    intro address free
    have notCovered : block.covers address = false := eq_false_iff.mpr fun covered =>
      eq_false_iff.mp free (covers_of_inside swallowed covered)
    simp only [Scan.keep]
    rw [blocks, newest_cons, notCovered, merged.outside address free]
    rfl
  case within =>
    intro isMerged address covered
    simp only [Scan.keep]
    rw [blocks]
    exact merged.within isMerged address covered
  case tags =>
    simp only [Scan.keep]
    rw [blocks]
    exact merged.tags.cons _

end

lemma mmMerge_merged (rangeSound : Sound host range) (prot : Protection)
    (sound : ∀ block ∈ blocks, Sound host block.range) :
    Merged host range prot blocks (mmMerge range prot blocks) := by
  induction blocks with
  | nil =>
    exact ⟨by simp [mmMerge, mmSanitizeQueue], fun _ => rfl, fun _ _ => rfl, fun isMerged => by simp [mmMerge] at isMerged,
      List.Sublist.refl _⟩
  | cons block older ih =>
    obtain ⟨blockSound, olderSound⟩ := forall_mem_cons.mp sound
    have older' := ih olderSound
    rw [mmMerge]
    split
    next apart =>
      refine older'.keep blockSound ?_
      rw [not_eq_true', Range.touches, Bool.or_assoc, or_eq_false_iff] at apart
      exact apart.1
    next touch =>
      split
      next =>
        split
        next swallowed => exact older'.drop swallowed
        split
        next apart => exact older'.keep blockSound (by simpa using apart)
        have same := sanitize_sound sound
        refine ⟨same.symm ▸ sound, fun _ => same, fun _ _ => by rw [same],
          fun isMerged => absurd isMerged false_ne_true, ?_⟩
        rw [same]
      next same =>
        have same : block.prot = prot := not_not.mp same
        have adjoins := touches_adjoins blockSound rangeSound (by simpa using touch)
        have mergedSound := merge_sound blockSound rangeSound
        have newSound : ∀ other ∈ block.merge range :: older, Sound host other.range :=
          forall_mem_cons.mpr ⟨mergedSound, olderSound⟩
        have clean := sanitize_sound newSound
        refine ⟨clean.symm ▸ newSound, fun _ => clean, fun address free => ?_, fun _ address covered => ?_, ?_⟩
        · rw [clean, newest_cons, newest_cons, merge_covers adjoins blockSound rangeSound, free, Bool.or_false]
          rfl
        · refine ⟨block.syncTag, ?_⟩
          rw [clean, newest_cons, merge_covers adjoins blockSound rangeSound, covered, Bool.or_true, ← same]
          rfl
        · rw [clean]
          exact List.Sublist.refl _

lemma newest_reverse (queue : List Block) (address : Nat) :
    newest queue.reverse address = (latest Block.covers queue address).map Block.key := rfl

structure Deferred (host : Host) (queue : List Block) (request : Request host) (after : List Block) : Prop where
  sound : ∀ block ∈ after, Sound host block.range
  outside : ∀ address, request.covers address = false ->
    (latest Block.covers after address).map Block.key = (latest Block.covers queue address).map Block.key
  within : ∀ address, request.covers address = true ->
    ∃ block, latest Block.covers after address = some block ∧ block.prot = request.prot
  tags : (after.map (·.syncTag)).Sublist (queue.map (·.syncTag) ++ [request.tag])

lemma mmDefer_deferred {queue : List Block} (sound : ∀ block ∈ queue, Sound host block.range)
    (request : Request host) : Deferred host queue request
      (mmDeferMprotect queue request.range.start request.range.length request.prot request.tag) := by
  let range := startLength request.range.start request.range.length
  let scan := mmMerge range request.prot queue.reverse
  let kept := (mmSanitizeQueue scan.blocks).reverse
  have rangeSound : Sound host range := request.range.sound
  have merged : Merged host range request.prot queue.reverse scan :=
    mmMerge_merged rangeSound request.prot fun block member => sound block (mem_reverse.mp member)
  have sanitized : (if scan.hasInvalid then mmSanitizeQueue scan.blocks.reverse else scan.blocks.reverse) = kept := by
    split
    next => exact filter_reverse
    next none => rw [← merged.clean (eq_false_iff.mpr none)]
  have keptSound : ∀ block ∈ kept, Sound host block.range := fun block member =>
    merged.sound block (mem_reverse.mp member)
  have keptNewest (address : Nat) :
      (latest Block.covers kept address).map Block.key = newest (mmSanitizeQueue scan.blocks) address := by
    rw [← newest_reverse, reverse_reverse]
  have keptOutside (address : Nat) (free : request.covers address = false) :
      (latest Block.covers kept address).map Block.key = (latest Block.covers queue address).map Block.key := by
    rw [keptNewest, merged.outside address (request_covers request address ▸ free), newest_reverse]
  have keptTags : (kept.map (·.syncTag)).Sublist (queue.map (·.syncTag)) := by
    have tags := merged.tags.reverse
    rwa [← map_reverse, ← map_reverse, reverse_reverse] at tags
  have result : mmDeferMprotect queue request.range.start request.range.length request.prot request.tag =
      if scan.isMerged then kept else kept ++ [⟨range, request.prot, request.tag⟩] := by
    simp only [mmDeferMprotect]
    rw [← sanitized]
  rw [result]
  split
  next isMerged =>
    refine ⟨keptSound, keptOutside, fun address covered => ?_, keptTags.trans (sublist_append_left _ _)⟩
    obtain ⟨tag, found⟩ := merged.within isMerged address (request_covers request address ▸ covered)
    obtain ⟨block, at_, key⟩ := Option.map_eq_some_iff.mp ((keptNewest address).trans found)
    exact ⟨block, at_, congrArg Prod.fst key⟩
  refine ⟨fun block member => ?_, fun address free => ?_, fun address covered => ?_, ?_⟩
  · rcases mem_append.mp member with old | new
    · exact keptSound block old
    · rw [mem_singleton.mp new]
      exact rangeSound
  · have notCovered : Block.covers ⟨range, request.prot, request.tag⟩ address = false :=
      (request_covers request address).symm.trans free
    rw [latest_append, latest_singleton, notCovered]
    exact keptOutside address free
  · have isCovered : Block.covers ⟨range, request.prot, request.tag⟩ address = true :=
      (request_covers request address).symm.trans covered
    rw [latest_append, latest_singleton, isCovered]
    exact ⟨_, rfl, rfl⟩
  · rw [map_append]
    exact keptTags.append (List.Sublist.refl _)

end EmuCore.Rsx.Mm
