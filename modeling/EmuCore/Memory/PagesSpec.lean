import EmuCore.Memory.Pages

namespace EmuCore.Memory

open PageFlags List

def kind (value : PageFlags) : PageFlags := value &&& ~~~(writable ||| readable)

variable {pages : Pages} {i count first : Nat}

lemma fill_inside {value : PageFlags} (from_ : first ≤ i) (before : i < first + count) :
    fill pages first count value i = value :=
  if_pos ⟨from_, before⟩

lemma fill_outside {value : PageFlags} (out : i < first ∨ first + count ≤ i) :
    fill pages first count value i = pages i :=
  if_neg (by omega)

lemma or_paged {a b : Nat} (paged : (a ||| b) % 4096 = 0) : a % 4096 = 0 ∧ b % 4096 = 0 := by
  have split : (a ||| b) % 2 ^ 12 = a % 2 ^ 12 ||| b % 2 ^ 12 := Nat.or_mod_two_pow
  rw [show (4096 : Nat) = 2 ^ 12 from rfl, split] at paged
  exact Nat.or_eq_zero_iff.mp paged

lemma unmapScan_even {size : Nat} {mapFlags : PageFlags}
    (used : ∀ j, i ≤ j -> j < i + count -> pages j &&& allocated ≠ 0)
    (even : ∀ j, i ≤ j -> j < i + count -> kind (pages j) = mapFlags) :
    unmapScan pages count i size mapFlags = .ok (size + count * 4096) := by
  induction count generalizing i size with
  | zero => simp [unmapScan]
  | succ count ih =>
    have here : kind (pages i) = mapFlags := even i le_rfl (by omega)
    rw [kind] at here
    rw [unmapScan, if_neg (used i le_rfl (by omega)), here,
      if_neg (by simp), ih (fun j after before => used j (by omega) (by omega))
        (fun j after before => even j (by omega) (by omega))]
    congr 1
    ring

lemma unmapScan_uneven {size : Nat} {mapFlags : PageFlags} (begun : size ≠ 0)
    (used : ∀ j, i ≤ j -> j < i + count -> pages j &&& allocated ≠ 0) {j : Nat} (from_ : i ≤ j) (before : j < i + count)
    (uneven : kind (pages j) ≠ mapFlags) :
    unmapScan pages count i size mapFlags = .error .inconsistency := by
  induction count generalizing i size with
  | zero => omega
  | succ count ih =>
    rw [unmapScan, if_neg (used i le_rfl (by omega))]
    by_cases same : mapFlags = pages i &&& ~~~(writable ||| readable)
    · have later : i ≠ j := by
        rintro rfl
        exact uneven same.symm
      rw [if_neg (by simp [same]), ← same]
      exact ih (by omega) (fun j after before => used j (by omega) (by omega)) (by omega) (by omega)
    · rw [if_pos ⟨begun, same⟩]

section Unmap

variable {pages : Pages} {addr size : Nat}

lemma unmapScan_first (filled : 0 < size) (paged : size % 4096 = 0)
    (used : ∀ j, addr / 4096 ≤ j -> j < addr / 4096 + size / 4096 -> pages j &&& allocated ≠ 0) :
    unmapScan pages (size / 4096) (addr / 4096) 0 0 =
      unmapScan pages (size / 4096 - 1) (addr / 4096 + 1) 4096 (kind (pages (addr / 4096))) := by
  obtain ⟨count, pieces⟩ : ∃ count, size / 4096 = count + 1 := ⟨size / 4096 - 1, by omega⟩
  rw [pieces, unmapScan, if_neg (used _ le_rfl (by omega)), if_neg (by simp)]
  rfl

section

variable (filled : 0 < size) (addrPaged : addr % 4096 = 0) (paged : size % 4096 = 0) (used : ∀ j, addr / 4096 ≤ j -> j < addr / 4096 + size / 4096 -> pages j &&& allocated ≠ 0)

include filled addrPaged paged used

lemma pageUnmap_even
    (even : ∀ j, addr / 4096 ≤ j -> j < addr / 4096 + size / 4096 ->
      kind (pages j) = kind (pages (addr / 4096))) :
    pageUnmap pages addr size = .ok (size, fill pages (addr / 4096) (size / 4096) 0) := by
  have valid : ¬(size = 0 ∨ (size ||| addr) % 4096 ≠ 0) := by
    rw [show (4096 : Nat) = 2 ^ 12 from rfl, Nat.or_mod_two_pow]
    simp [paged, addrPaged, filled.ne']
  have scanned : unmapScan pages (size / 4096) (addr / 4096) 0 0 = .ok size := by
    rw [unmapScan_first filled paged used,
      unmapScan_even (fun j after before => used j (by omega) (by omega))
        (fun j after before => even j (by omega) (by omega))]
    congr 1
    omega
  rw [pageUnmap, if_neg valid, scanned]
  simp [filled.ne']

lemma pageUnmap_uneven
    {j : Nat} (from_ : addr / 4096 ≤ j) (before : j < addr / 4096 + size / 4096)
    (uneven : kind (pages j) ≠ kind (pages (addr / 4096))) :
    pageUnmap pages addr size = .error .inconsistency := by
  have valid : ¬(size = 0 ∨ (size ||| addr) % 4096 ≠ 0) := by
    rw [show (4096 : Nat) = 2 ^ 12 from rfl, Nat.or_mod_two_pow]
    simp [paged, addrPaged, filled.ne']
  have later : addr / 4096 ≠ j := by
    rintro rfl
    exact uneven rfl
  rw [pageUnmap, if_neg valid, unmapScan_first filled paged used,
    unmapScan_uneven (by decide) (fun j after before => used j (by omega) (by omega)) (by omega)
      (by omega) uneven]

end

end Unmap

/-- The loop of page_protect before it looks at page `i`. The pages from `start` on have their old
values, and their new value is `startValue`; the run before them had another one. -/
structure Protect.Ok (old : Pages) (set clear : PageFlags) (first i : Nat) (p : Protect) : Prop where
  bounds : first ≤ p.start ∧ p.start ≤ i ∧ (first < i -> p.start < i)
  rest : ∀ j, p.start ≤ j -> p.pages j = old j
  run : ∀ j, p.start ≤ j -> j < i -> changed set clear (old j) = p.startValue
  early : ∀ j, j < first -> p.pages j = old j
  written : ∀ j, p.pages j = old j ∨ p.pages j = changed set clear (old j)
  alike : ∀ j, first ≤ j -> j + 1 < p.start -> old j = old (j + 1) -> p.pages j = p.pages (j + 1)
  border : first < p.start -> changed set clear (old (p.start - 1)) ≠ p.startValue

structure Done (old : Pages) (set clear : PageFlags) (first i : Nat) (pages : Pages) : Prop where
  rest : ∀ j, i ≤ j -> pages j = old j
  early : ∀ j, j < first -> pages j = old j
  written : ∀ j, pages j = old j ∨ pages j = changed set clear (old j)
  alike : ∀ j, first ≤ j -> j + 1 < i -> old j = old (j + 1) -> pages j = pages (j + 1)

namespace Protect

variable {old : Pages} {set clear : PageFlags} {first count i : Nat} {p : Protect}

variable (ok : p.Ok old set clear first i)

include ok

lemma Ok.border_apart {j : Nat} (from_ : first ≤ j)
    (here : j + 1 = p.start) (before : j + 1 < i) : old j ≠ old (j + 1) := by
  intro same
  apply ok.border (by omega)
  rw [show p.start - 1 = j by omega, same]
  exact ok.run (j + 1) (by omega) before

lemma Ok.unflushed : Done old set clear first i p.pages where
  __ := ok
  rest := fun j after => ok.rest j (ok.bounds.2.1.trans after)
  alike := fun j from_ before same => by
    rcases Nat.lt_trichotomy (j + 1) p.start with earlier | here | later
    · exact ok.alike j from_ earlier same
    · exact absurd same (ok.border_apart from_ here before)
    · rw [ok.rest j (by omega), ok.rest (j + 1) (by omega), same]

lemma Ok.filled :
    Done old set clear first i (fill p.pages p.start (i - p.start) p.startValue) := by
  have bounds := ok.bounds
  refine ⟨fun j after => ?_, fun j before => ?_, fun j => ?_, fun j from_ before same => ?_⟩
  · rw [fill_outside (.inr (by omega)), ok.rest j (by omega)]
  · rw [fill_outside (.inl (by omega)), ok.early j before]
  · by_cases inside : p.start ≤ j ∧ j < i
    · rw [fill_inside inside.1 (by omega)]
      exact .inr (ok.run j inside.1 inside.2).symm
    · rw [fill_outside (by omega)]
      exact ok.written j
  · rcases Nat.lt_trichotomy (j + 1) p.start with earlier | here | later
    · rw [fill_outside (.inl (by omega)), fill_outside (.inl earlier)]
      exact ok.alike j from_ earlier same
    · exact absurd same (ok.border_apart from_ here before)
    · rw [fill_inside (by omega) (by omega), fill_inside (by omega) (by omega)]

lemma Ok.flush : Done old set clear first i (p.flush i) := by
  unfold Protect.flush
  split
  next => exact ok.filled
  next => exact ok.unflushed

lemma Ok.step {last : Nat} (from_ : first ≤ i)
    (before : i < last) : (p.step set clear last i).Ok old set clear first (i + 1) := by
  have bounds := ok.bounds
  have here : p.pages i = old i := ok.rest i bounds.2.1
  simp only [Protect.step, if_pos before, here]
  split
  next same =>
    refine { ok with bounds := by omega, run := fun j after before => ?_ }
    rcases Nat.lt_succ_iff_lt_or_eq.mp before with earlier | rfl
    · exact ok.run j after earlier
    · exact same
  next differs =>
    have done := ok.flush
    refine ⟨by dsimp only; omega, done.rest, fun j after before => ?_, done.early, done.written,
      done.alike, fun begun => ?_⟩
    · obtain rfl : j = i := by
        dsimp only at after
        omega
      rfl
    · dsimp only at begun
      rw [ok.run (i - 1) (by omega) (by omega)]
      exact Ne.symm differs

omit ok

lemma fold_ok (old : Pages) (set clear : PageFlags) (first : Nat) {rounds : Nat} (few : rounds ≤ count) :
    ((List.range' first rounds).foldl (Protect.step set clear (first + count))
      ⟨old, first, executable⟩).Ok old set clear first (first + rounds) := by
  induction rounds with
  | zero =>
    exact ⟨by simp, fun _ _ => rfl, fun j after before => by simp at after before; omega,
      fun _ _ => rfl, fun _ => .inl rfl, fun _ _ _ same => same, fun begun => by simp at begun⟩
  | succ rounds ih =>
    rw [range'_1_concat, foldl_append]
    exact (ih (by omega)).step (by omega) (by omega)

end Protect

lemma protectRange_done (old : Pages) (set clear : PageFlags) (first count : Nat) :
    Done old set clear first (first + count) (protectRange old set clear first count) := by
  have ok := Protect.fold_ok old set clear first (le_refl count)
  unfold protectRange
  rw [range'_1_concat, foldl_append]
  generalize (List.range' first count).foldl _ _ = p at ok
  simp only [foldl_cons, foldl_nil, Protect.step, lt_irrefl, if_false]
  split
  next => exact ok.unflushed
  next => exact ok.flush

variable {clear : PageFlags}

lemma Done.run {old : Pages} {set : PageFlags} {last j : Nat} (done : Done old set clear first last pages)
    (from_ : first ≤ i) (ordered : i ≤ j) (before : j < last) (same : ∀ x, i ≤ x -> x ≤ j -> old x = old i) :
    pages j = pages i := by
  induction j, ordered using Nat.le_induction with
  | base => rfl
  | succ j ordered ih =>
    have here : old j = old (j + 1) := by rw [same j ordered (by omega), same (j + 1) (by omega) le_rfl]
    rw [← done.alike j (by omega) before here]
    exact ih (by omega) fun x after until_ => same x after (by omega)

lemma changed_keeps {set mask : PageFlags} (even : set &&& mask = clear &&& mask) (value : PageFlags) :
    changed (set &&& ~~~(set &&& clear)) (clear &&& ~~~(set &&& clear)) value &&& mask =
      value &&& mask := by
  apply BitVec.eq_of_getLsbD_eq
  intro i inside
  have bit := congrArg (fun v => v.getLsbD i) even
  simp only [BitVec.getLsbD_and] at bit
  simp only [changed, BitVec.getLsbD_and, BitVec.getLsbD_or, BitVec.getLsbD_not, inside, decide_true,
    Bool.true_and]
  generalize set.getLsbD i = x at bit ⊢
  generalize clear.getLsbD i = y at bit ⊢
  generalize mask.getLsbD i = m at bit ⊢
  cases m <;> cases x <;> cases y <;> simp_all

lemma pageProtect_cases {next : Pages} {addr size : Nat} {test set : PageFlags} {result : Bool} :
    pageProtect pages addr size test set clear = .ok (result, next) ->
    next = pages ∧ (result = true -> set &&& ~~~(set &&& clear) = 0 ∧ clear &&& ~~~(set &&& clear) = 0) ∨
      result = true ∧
        checkAddr pages addr
          (test ||| allocated ||| (pages (addr / 4096) &&& (size1m ||| size64k)))
          (roundedSize (pages (addr / 4096)) size) = true ∧
        next = protectRange pages (set &&& ~~~(set &&& clear)) (clear &&& ~~~(set &&& clear))
          (addr / 4096) (roundedSize (pages (addr / 4096)) size / 4096) := by
  fun_cases pageProtect pages addr size test set clear with
  | case1 => rintro ⟨⟩
  | case2 | case4 =>
    rintro ⟨⟩
    exact .inl ⟨rfl, Bool.noConfusion⟩
  | case3 _ _ _ _ _ empty =>
    rintro ⟨⟩
    exact .inl ⟨rfl, fun _ => empty⟩
  | case5 _ _ _ _ _ _ _ _ checked =>
    rintro ⟨⟩
    simp only [not_or, not_not] at checked
    exact .inr ⟨rfl, checked.2, rfl⟩

end EmuCore.Memory
