import EmuCore.Rsx.DataHeap

namespace EmuCore.Rsx.DataHeap

def Request.position (h : DataHeap) : Request -> Nat
  | .alloc bits _ => Align.up 64 h.putPos (2 ^ bits)
  | .staticAlloc _ _ => h.putPos

def Request.length : Request -> Nat
  | .alloc bits size => Align.up 64 size (2 ^ bits)
  | .staticAlloc _ size => size

variable (h : DataHeap) (r : Request)

def Request.Exact : Prop :=
  match r with
  | .alloc bits size =>
    size + (2 ^ bits - 1) < 2 ^ 64 ∧ h.putPos + (2 ^ bits - 1) < 2 ^ 64 ∧ r.position h + r.length < 2 ^ 64
  | .staticAlloc _ _ => r.position h + r.length < 2 ^ 64

def Request.Apart : Prop :=
  r.size = 0 ∨ r.Exact h ∧ (h.putPos ≤ h.getPos -> r.position h < h.getPos)

def Request.Succeeds : Prop := ∃ position next, r.serve h = .ok (position, next)

def Request.Sound : Prop :=
  ∀ position next, r.serve h = .ok (position, next) ->
    position + r.size ≤ h.size ∧ ∀ x, position ≤ x -> x < position + r.size -> ¬h.InUse x

variable {h next : DataHeap}

lemma take_cases {position length requested result : Nat}
    (taken : h.take position length requested = .ok (result, next)) :
    let allocEnd := (position + length) % 2 ^ 64
    (allocEnd < h.size ∧ (allocEnd < h.getPos ∨ h.getPos < position) ∧ result = position ∧
      next = { h with putPos := allocEnd }) ∨
    (h.size ≤ allocEnd ∧ h.getPos ≤ position ∧ length ≤ h.getPos ∧ result = 0 ∧
      next = { h with putPos := length }) := by
  intro allocEnd
  unfold take at taken
  split at taken
  next => cases taken
  next can =>
    have can : h.canAllocImpl position length = true := by simpa [grow] using can
    unfold canAllocImpl at can
    dsimp only at can taken
    split at taken
    next inside =>
      cases taken
      rw [if_pos inside] at can
      refine .inl ⟨inside, ?_, rfl, rfl⟩
      by_contra neither
      rw [not_or] at neither
      rw [if_neg neither.1, if_neg neither.2] at can
      cases can
    next beyond =>
      cases taken
      rw [if_neg beyond] at can
      refine .inr ⟨Nat.le_of_not_lt beyond, ?_, ?_, rfl, rfl⟩
      · by_contra low
        rw [if_pos (Nat.lt_of_not_le low)] at can
        cases can
      · by_contra large
        rw [if_pos (Nat.lt_of_not_le large), ite_self] at can
        cases can

variable {r : Request}

lemma serve_cases {result : Nat} (served : r.serve h = .ok (result, next)) :
    let allocEnd := (r.position h + r.length) % 2 ^ 64
    (allocEnd < h.size ∧ (allocEnd < h.getPos ∨ h.getPos < r.position h) ∧ result = r.position h ∧
      next = { h with putPos := allocEnd }) ∨
    (h.size ≤ allocEnd ∧ h.getPos ≤ r.position h ∧ r.length ≤ h.getPos ∧ result = 0 ∧
      next = { h with putPos := r.length }) := by
  cases r with
  | alloc bits size => exact take_cases served
  | staticAlloc bits size =>
    simp only [Request.serve, staticAlloc] at served
    split at served
    next => exact take_cases served
    next => cases served

def Position (size x : Nat) : Prop := x < size ∨ size = 0 ∧ x = 2 ^ 64 - 1

structure Ok (s : State) : Prop where
  size : s.heap.size < 2 ^ 64
  put : s.heap.putPos < s.heap.size ∨ s.heap.size = 0 ∧ s.heap.putPos = 0
  get : Position s.heap.size s.heap.getPos
  recorded : ∀ value ∈ s.recorded, Position s.heap.size value

lemma position_last {size : Nat} (small : size < 2 ^ 64) : Position size ((size + (2 ^ 64 - 1)) % 2 ^ 64) := by
  unfold Position
  omega

variable {s : State}

lemma Ok.minusOne (ok : Ok s) : Position s.heap.size s.heap.getCurrentPutPosMinusOne := by
  unfold getCurrentPutPosMinusOne
  split
  next positive =>
    rcases ok.put with inside | ⟨_, zero⟩
    · exact .inl (by omega)
    · omega
  next => exact position_last ok.size

lemma Request.position_lt (valid : r.Valid) (put : h.putPos < 2 ^ 64) :
    r.position h < 2 ^ 64 := by
  cases r with
  | alloc bits size => exact Align.up_lt _ (valid.1.trans (by decide))
  | staticAlloc bits size => exact put

lemma Request.position_zero (valid : r.Valid) (zero : h.putPos = 0) :
    r.position h = 0 := by
  cases r with
  | alloc bits size =>
    rw [Request.position, zero]
    exact Align.up_zero (valid.1.trans (by decide))
  | staticAlloc bits size => exact zero

lemma Request.length_zero (valid : r.Valid) (zero : r.size = 0) : r.length = 0 := by
  cases r with
  | alloc bits size =>
    obtain rfl : size = 0 := zero
    exact Align.up_zero (valid.1.trans (by decide))
  | staticAlloc bits size => exact zero

lemma Ok.nonempty (ok : Ok s) (valid : r.Valid) {position : Nat} (served : r.serve s.heap = .ok (position, next)) :
    s.heap.putPos < s.heap.size ∧ s.heap.getPos < s.heap.size := by
  rcases ok.put with put | ⟨empty, start⟩
  · rcases ok.get with get | ⟨empty, _⟩
    · exact ⟨put, get⟩
    · omega
  · have low := Request.position_zero valid start
    rcases ok.get with get | ⟨_, get⟩
    · omega
    · rcases serve_cases served with ⟨inside, _⟩ | ⟨_, reached, _⟩ <;> omega

lemma step_ok {next : State} {c : Call} (ok : Ok s) : step s c = some next -> Ok next := by
  fun_cases step s c with
  | case1 r valid position heap served =>
    rintro ⟨⟩
    have nonempty := ok.nonempty valid served
    rcases serve_cases served with ⟨inside, _, _, rfl⟩ | ⟨_, _, few, _, rfl⟩
    · exact ⟨ok.size, .inl inside, ok.get, ok.recorded⟩
    · exact ⟨ok.size, .inl (few.trans_lt nonempty.2), ok.get, ok.recorded⟩
  | case2 =>
    rintro ⟨⟩
    exact ok
  | case4 =>
    rintro ⟨⟩
    exact ⟨ok.size, ok.put, ok.get, List.forall_mem_cons.mpr ⟨ok.minusOne, ok.recorded⟩⟩
  | case5 value known =>
    rintro ⟨⟩
    exact ⟨ok.size, ok.put, ok.recorded value known, ok.recorded⟩
  | case7 =>
    rintro ⟨⟩
    exact ⟨ok.size, ok.put, ok.minusOne, ok.recorded⟩
  | case3 | case6 => rintro ⟨⟩

lemma reachable_ok (reach : system.Reachable s) : Ok s := by
  refine reach.invariant (P := Ok) ?_ fun s c next ok move => step_ok ok move
  rintro s ⟨heapSize, small, bufferName, minGuardSize, rfl⟩
  refine ⟨small, ?_, position_last small, fun value member => by cases member⟩
  show 0 < heapSize ∨ heapSize = 0 ∧ 0 = 0
  omega

section Requests

variable {s : State} {r : Request}

lemma Request.Exact.bounds (valid : r.Valid) (exact : r.Exact s.heap) :
    s.heap.putPos ≤ r.position s.heap ∧ r.size ≤ r.length ∧ r.position s.heap + r.length < 2 ^ 64 := by
  cases r with
  | alloc bits size =>
    obtain ⟨first, second, third⟩ := exact
    have bits : bits < 64 := by have := valid.1; omega
    exact ⟨(Align.up_spec second bits).1, (Align.up_spec first bits).1, third⟩
  | staticAlloc bits size => exact ⟨le_rfl, le_rfl, exact⟩

lemma Request.Apart.sound (ok : Ok s) (valid : r.Valid) (apart : r.Apart s.heap) : r.Sound s.heap := by
  intro position next served
  obtain ⟨put, get⟩ := ok.nonempty valid served
  rcases apart with none | ⟨exact, below⟩
  · have length := Request.length_zero valid none
    have small := Request.position_lt valid (put.trans ok.size)
    refine ⟨?_, fun x low high => by omega⟩
    rcases serve_cases served with ⟨inside, _, rfl, _⟩ | ⟨_, _, _, rfl, _⟩ <;> omega
  obtain ⟨later, fits, whole⟩ := exact.bounds valid
  have same := Nat.mod_eq_of_lt whole
  unfold InUse
  rcases serve_cases served with ⟨inside, _, rfl, _⟩ | ⟨_, reached, few, rfl, _⟩
  · refine ⟨by omega, fun x low high => ?_⟩
    split <;> omega
  · refine ⟨by omega, fun x low high => ?_⟩
    split <;> omega

section

variable (ok : Ok s) (valid : r.Valid) (room : s.heap.size + 2 ^ r.bits ≤ 2 ^ 64) (sound : r.Sound s.heap) (succeeds : r.Succeeds s.heap)

include ok valid room sound succeeds

lemma Request.Sound.exact : r.Exact s.heap := by
  obtain ⟨position, next, served⟩ := succeeds
  obtain ⟨put, get⟩ := ok.nonempty valid served
  have small := Request.position_lt valid (put.trans ok.size)
  have fits := (sound position next served).1
  have whole (short : r.length < r.size + 2 ^ r.bits) : r.position s.heap + r.length < 2 ^ 64 := by
    by_contra wraps
    rcases serve_cases served with ⟨_, _, rfl, _⟩ | ⟨beyond, _, few, _, _⟩ <;> omega
  cases r with
  | alloc bits size =>
    simp only [Request.bits, Request.size] at room fits
    have positive : 0 < 2 ^ bits := Nat.two_pow_pos bits
    have first : size + (2 ^ bits - 1) < 2 ^ 64 := by omega
    exact ⟨first, by omega, whole (Align.up_spec first (valid.1.trans (by decide))).2.1⟩
  | staticAlloc bits size => exact whole (Nat.lt_add_of_pos_right (Nat.two_pow_pos bits))

lemma Request.Sound.apart : r.Apart s.heap := by
  by_cases none : r.size = 0
  · exact .inl none
  have exact := sound.exact ok valid room succeeds
  refine .inr ⟨exact, fun order => ?_⟩
  obtain ⟨later, _, whole⟩ := exact.bounds valid
  obtain ⟨position, next, served⟩ := succeeds
  obtain ⟨put, get⟩ := ok.nonempty valid served
  have free := (sound position next served).2
  by_contra reached
  have zero := Request.position_zero (h := s.heap) valid
  have same := Nat.mod_eq_of_lt whole
  refine free position le_rfl (by omega) ?_
  rw [InUse, if_neg (by omega)]
  rcases serve_cases served with ⟨inside, _, rfl, _⟩ | ⟨_, _, _, rfl, _⟩ <;> omega

end

end Requests

/-- Requests are sound as long as they stay apart from the get position; for a heap that ends an alignment
below the top of the address space only then. -/
theorem heap_requests_iff {s : State} (reach : system.Reachable s) (r : Request) (valid : r.Valid) :
    (r.Apart s.heap -> r.Sound s.heap) ∧
    (s.heap.size + 2 ^ r.bits ≤ 2 ^ 64 -> (r.Sound s.heap ↔ (r.Succeeds s.heap -> r.Apart s.heap))) := by
  have ok := reachable_ok reach
  refine ⟨fun apart => apart.sound ok valid, fun room => ⟨fun sound => sound.apart ok valid room, ?_⟩⟩
  intro apart position next served
  exact (apart ⟨position, next, served⟩).sound ok valid position next served

theorem heap_requests_iff_first :
    let s : State := ⟨.init 4096 none 0, []⟩
    (Request.alloc 8 3000).Sound s.heap :=
  (heap_requests_iff (.init ⟨4096, by decide, none, 0, rfl⟩) (.alloc 8 3000) (by decide)).1
    (.inr ⟨⟨by decide, by decide, by decide +kernel⟩, fun _ => by decide +kernel⟩)

/-- In turn: an alignment jumps across the get position, a request that fills the heap up to the get
position is followed by another, and a sum wraps. -/
theorem heap_requests_overlap :
    (∃ s next, system.Reachable s ∧ (Request.alloc 8 16).serve s.heap = .ok (3072, next) ∧
      s.heap.InUse 3072) ∧
    (∃ s next, system.Reachable s ∧ (Request.staticAlloc 3 8).serve s.heap = .ok (0, next) ∧
      s.heap.InUse 0) ∧
    (∃ s next, system.Reachable s ∧ (Request.alloc 8 (2 ^ 64 - 256)).serve s.heap = .ok (256, next) ∧
      s.heap.size < 256 + (2 ^ 64 - 256)) := by
  have start : ∀ size < 2 ^ 64, system.Reachable ⟨.init size none 0, []⟩ :=
    fun size small => .init ⟨size, small, none, 0, rfl⟩
  refine ⟨?_, ?_, ?_⟩
  · have ran : system.run ⟨.init 4096 none 0, []⟩
        [.request (.alloc 8 3000), .record, .setGetPos 3071, .request (.alloc 0 1000),
          .request (.alloc 0 2950)] = some ⟨⟨4096, 2950, 3071, 0, "<unnamed>"⟩, [3071]⟩ := by
      decide +kernel
    exact ⟨_, _, (start 4096 (by decide)).run _ ran, by rfl, by decide⟩
  · have ran : system.run ⟨.init 16 none 0, []⟩
        [.request (.alloc 0 9), .record, .setGetPos 8, .request (.alloc 0 3),
          .request (.alloc 0 8)] = some ⟨⟨16, 8, 8, 0, "<unnamed>"⟩, [8]⟩ := by
      decide +kernel
    exact ⟨_, _, (start 16 (by decide)).run _ ran, by rfl, by decide⟩
  · have ran : system.run ⟨.init 4096 none 0, []⟩ [.request (.alloc 8 256)] =
        some ⟨⟨4096, 256, 4095, 0, "<unnamed>"⟩, []⟩ := by
      decide +kernel
    exact ⟨_, _, (start 4096 (by decide)).run _ ran, by rfl, by decide⟩

end EmuCore.Rsx.DataHeap
