import EmuCore.Memory.BlockSpec
import EmuCore.Memory.Vm

namespace EmuCore.Memory

open PageFlags BlockFlags

def Vm.Holds (s : Vm) (block addr : Nat) (e : Entry) : Prop :=
  ∃ b, s.blocks[block]? = some b ∧ b.map.find? addr = some e

def Within (i addr size : Nat) : Prop := addr / 4096 ≤ i ∧ i < addr / 4096 + size / 4096

/-- The page table and the maps of the blocks agree: the allocated pages are those of the entries,
and no page belongs to two entries. -/
structure Vm.Core (s : Vm) : Prop where
  entries : ∀ {k a e}, s.Holds k a e ->
    0 < e.size ∧ (a % 4096 = 0 ∧ e.size % 4096 = 0) ∧ a + e.size ≤ 2 ^ 32
  used : ∀ {k a e i}, s.Holds k a e -> Within i a e.size -> s.pages i &&& allocated ≠ 0
  owned : ∀ {i}, s.pages i &&& allocated ≠ 0 -> ∃ k a e, s.Holds k a e ∧ Within i a e.size
  apart : ∀ {k a e k' a' e' i}, s.Holds k a e -> s.Holds k' a' e' -> Within i a e.size ->
    Within i a' e'.size -> k = k' ∧ a = a'

namespace Vm

open List

variable {s : Vm} {k : Nat} {b : Block}

lemma holds_addBlock (s : Vm) (area : Area) (k a : Nat) (e : Entry) :
    (s.addBlock area).Holds k a e ↔ s.Holds k a e := by
  constructor
  · rintro ⟨b, at_, found⟩
    rw [addBlock, getElem?_append] at at_
    split at at_
    next => exact ⟨b, at_, found⟩
    next =>
      obtain rfl := mem_singleton.mp (mem_of_getElem? at_)
      cases found
  · rintro ⟨b, at_, found⟩
    exact ⟨b, by rw [addBlock, getElem?_append_left (List.getElem?_eq_some_iff.mp at_).1, at_],
      found⟩

variable (at_ : s.blocks[k]? = some b)

include at_

lemma holds_put (pages : Pages) (next : Block) (k' a : Nat)
    (e : Entry) : (s.put k pages next).Holds k' a e ↔
      k' = k ∧ next.map.find? a = some e ∨ k' ≠ k ∧ s.Holds k' a e := by
  have inside := (List.getElem?_eq_some_iff.mp at_).1
  by_cases same : k' = k
  · subst same
    simp [Holds, put, getElem?_set_self inside]
  · simp [Holds, put, getElem?_set_ne (Ne.symm same), same]

lemma holds_here {a : Nat} {e : Entry} :
    s.Holds k a e ↔ b.map.find? a = some e := by
  simp [Holds, at_]

lemma holds_record (pages : Pages) (a size : Nat) (shm : Option Nat)
    (k' a' : Nat) (e : Entry) : (s.put k pages (b.record a size shm)).Holds k' a' e ↔
      (k' = k ∧ a' = a) ∧ e = ⟨size, shm⟩ ∨ ¬(k' = k ∧ a' = a) ∧ s.Holds k' a' e := by
  rw [holds_put at_]
  by_cases same : k' = k
  · subst same
    by_cases here : a' = a
    · simp [Block.record, here, eq_comm]
    · simp [Block.record, here, holds_here at_]
  · simp [same]

lemma holds_forget (pages : Pages) (a k' a' : Nat) (e : Entry) :
    (s.put k pages (b.forget a)).Holds k' a' e ↔ ¬(k' = k ∧ a' = a) ∧ s.Holds k' a' e := by
  rw [holds_put at_]
  by_cases same : k' = k
  · subst same
    by_cases here : a' = a
    · simp [Block.forget, SortedMap.find?_erase, here]
    · simp [Block.forget, SortedMap.find?_erase, here, holds_here at_]
  · simp [same]

lemma put_same : s.put k s.pages b = s := by
  obtain ⟨pages, blocks⟩ := s
  have inside := List.getElem?_eq_some_iff.mp at_
  simp only [put, mk.injEq, true_and]
  rw [← inside.2]
  exact set_getElem_self inside.1

omit at_

lemma Core.fresh (core : s.Core) {a : Nat} (free : s.pages (a / 4096) = 0) (k : Nat) (e : Entry) :
    ¬s.Holds k a e := by
  intro holds
  obtain ⟨filled, paged, _⟩ := core.entries holds
  apply core.used holds ⟨le_rfl, by omega⟩
  simp [free]

lemma Core.placed (core : s.Core) (at_ : s.blocks[k]? = some b) {a size : Nat}
    {bflags : BlockFlags} {next : Block} {mapped : Pages}
    (placed : Placed b s.pages a size bflags next mapped) : (s.put k mapped next).Core := by
  obtain ⟨shm, rfl⟩ := placed.next
  have bounded := placed.bounded
  have limit := b.area.bounded
  have filled := placed.filled
  have paged := placed.paged
  have fresh := core.fresh (placed.free (a / 4096) le_rfl (by omega))
  have inside : ∀ {i}, Within i a size -> mapped i &&& allocated ≠ 0 := fun within => by
    rw [placed.mapped, fill_inside within.1 within.2]
    intro none
    have bit := congrArg (fun v => v.getLsbD 7) none
    simp [allocated] at bit
  have outside : ∀ {i}, ¬Within i a size -> mapped i = s.pages i := fun {i} within => by
    rw [placed.mapped]
    exact fill_outside (by simp only [Within] at within; omega)
  have free : ∀ {i}, Within i a size -> s.pages i &&& allocated = 0 := fun within => by
    rw [placed.free _ within.1 within.2]
    decide
  constructor
  case entries =>
    intro k' a' e holds
    rcases (holds_record at_ mapped a size shm k' a' e).mp holds with ⟨⟨rfl, rfl⟩, rfl⟩ | ⟨_, old⟩
    · exact ⟨filled, paged, by dsimp only; omega⟩
    · exact core.entries old
  case used =>
    intro k' a' e i holds within
    rcases (holds_record at_ mapped a size shm k' a' e).mp holds with ⟨⟨rfl, rfl⟩, rfl⟩ | ⟨_, old⟩
    · exact inside within
    · have before := core.used old within
      change mapped i &&& allocated ≠ 0
      rwa [outside fun here => before (free here)]
  case owned =>
    intro i used
    by_cases here : Within i a size
    · exact ⟨k, a, ⟨size, shm⟩, (holds_record at_ mapped a size shm _ _ _).mpr (.inl ⟨⟨rfl, rfl⟩, rfl⟩),
        here⟩
    change mapped i &&& allocated ≠ 0 at used
    rw [outside here] at used
    obtain ⟨k', a', e, old, within⟩ := core.owned used
    refine ⟨k', a', e, (holds_record at_ mapped a size shm _ _ _).mpr (.inr ⟨?_, old⟩), within⟩
    rintro ⟨rfl, rfl⟩
    exact fresh k' e old
  case apart =>
    intro k₁ a₁ e₁ k₂ a₂ e₂ i first second within₁ within₂
    rw [holds_record at_] at first second
    rcases first with ⟨⟨rfl, rfl⟩, rfl⟩ | ⟨_, old₁⟩ <;>
      rcases second with ⟨⟨rfl, rfl⟩, rfl⟩ | ⟨_, old₂⟩
    · exact ⟨rfl, rfl⟩
    · exact absurd (free within₁) (core.used old₂ within₂)
    · exact absurd (free within₂) (core.used old₁ within₁)
    · exact core.apart old₁ old₂ within₁ within₂

lemma Core.removed (core : s.Core) (at_ : s.blocks[k]? = some b) {a : Nat} {e : Entry}
    (found : b.map.find? a = some e) :
    (s.put k (fill s.pages (a / 4096) (e.size / 4096) 0) (b.forget a)).Core := by
  have holds := (holds_here at_).mpr found
  have outside : ∀ {i}, ¬Within i a e.size ->
      fill s.pages (a / 4096) (e.size / 4096) 0 i = s.pages i := fun {i} within =>
    fill_outside (by simp only [Within] at within; omega)
  constructor
  case entries =>
    intro k' a' e' left
    exact core.entries ((holds_forget at_ _ a k' a' e').mp left).2
  case used =>
    intro k' a' e' i left within
    obtain ⟨other, old⟩ := (holds_forget at_ _ a k' a' e').mp left
    change fill _ _ _ _ i &&& allocated ≠ 0
    rw [outside fun here => other (core.apart old holds within here)]
    exact core.used old within
  case owned =>
    intro i used
    change fill _ _ _ _ i &&& allocated ≠ 0 at used
    by_cases here : Within i a e.size
    · rw [fill_inside here.1 here.2] at used
      exact absurd (by decide) used
    rw [outside here] at used
    obtain ⟨k', a', e', old, within⟩ := core.owned used
    refine ⟨k', a', e', (holds_forget at_ _ a k' a' e').mpr ⟨?_, old⟩, within⟩
    rintro ⟨rfl, rfl⟩
    obtain rfl := Option.some.inj (found.symm.trans ((holds_here at_).mp old))
    exact here within
  case apart =>
    intro k₁ a₁ e₁ k₂ a₂ e₂ i first second within₁ within₂
    exact core.apart ((holds_forget at_ _ a _ _ _).mp first).2 ((holds_forget at_ _ a _ _ _).mp second).2
      within₁ within₂

lemma Core.repaint (core : s.Core) {pages : Pages}
    (same : ∀ i, pages i &&& allocated = s.pages i &&& allocated) : ({ s with pages := pages } : Vm).Core where
  entries := fun holds => core.entries holds
  used := fun holds within => by
    rw [same]
    exact core.used holds within
  owned := fun used => core.owned (by rwa [same] at used)
  apart := fun first second within₁ within₂ => core.apart first second within₁ within₂

lemma Core.addBlock (core : s.Core) (area : Area) : (s.addBlock area).Core where
  entries := fun holds => core.entries ((holds_addBlock s area _ _ _).mp holds)
  used := fun holds within => core.used ((holds_addBlock s area _ _ _).mp holds) within
  owned := fun used => by
    obtain ⟨k, a, e, holds, within⟩ := core.owned used
    exact ⟨k, a, e, (holds_addBlock s area _ _ _).mpr holds, within⟩
  apart := fun first second within₁ within₂ =>
    core.apart ((holds_addBlock s area _ _ _).mp first) ((holds_addBlock s area _ _ _).mp second) within₁
      within₂

lemma Empty.core (empty : s.Empty) : s.Core := by
  have nothing : ∀ {k a e}, ¬s.Holds k a e := by
    rintro k a e ⟨b, at_, found⟩
    rw [empty.2 b (mem_of_getElem? at_)] at found
    cases found
  constructor
  case entries => exact fun holds => absurd holds nothing
  case used => exact fun holds => absurd holds nothing
  case apart => exact fun holds => absurd holds nothing
  case owned =>
    intro i used
    rw [empty.1 i] at used
    exact absurd (by decide) used

end Vm

open Prod

def Call.KeepsAllocated : Call -> Prop
  | .pageProtect _ _ _ set clear => set &&& allocated = clear &&& allocated
  | _ => True

variable {src : Option Nat}

namespace Vm

variable {s next : Vm} {k : Nat} {b : Block}

def Even (pages : Pages) (a size : Nat) : Prop :=
  ∀ i, Within i a size -> kind (pages i) = kind (pages (a / 4096))

section

variable (core : s.Core) (at_ : s.blocks[k]? = some b) {a : Nat} {e : Entry} (found : b.map.find? a = some e) (same : src = none ∨ src = e.shm)

include core at_ found same

lemma dealloc_even (even : Even s.pages a e.size) :
    b.dealloc s.pages a src =
      (.ok e.size, fill s.pages (a / 4096) (e.size / 4096) 0, b.forget a) := by
  have holds := (holds_here at_).mpr found
  obtain ⟨filled, paged, _⟩ := core.entries holds
  have unmapped := pageUnmap_even filled paged.1 paged.2
    (fun j from_ before => core.used holds ⟨from_, before⟩)
    (fun j from_ before => even j ⟨from_, before⟩)
  have match_ : ¬(src ≠ none ∧ e.shm ≠ src) := by
    rintro ⟨given, differs⟩
    exact differs (same.resolve_left given).symm
  simp [Block.dealloc, found, if_neg match_, unmapped]

lemma dealloc_uneven (uneven : ¬Even s.pages a e.size) :
    b.dealloc s.pages a src = (.error .inconsistency, s.pages, b) := by
  have holds := (holds_here at_).mpr found
  obtain ⟨filled, paged, _⟩ := core.entries holds
  unfold Even at uneven
  push Not at uneven
  obtain ⟨j, within, differs⟩ := uneven
  have thrown := pageUnmap_uneven filled paged.1 paged.2
    (fun j from_ before => core.used holds ⟨from_, before⟩) within.1 within.2 differs
  have match_ : ¬(src ≠ none ∧ e.shm ≠ src) := by
    rintro ⟨given, differs⟩
    exact differs (same.resolve_left given).symm
  simp [Block.dealloc, found, if_neg match_, thrown]

end

inductive Move (s : Vm) : Call -> Vm -> Prop
  | stay (c : Call) : Move s c s
  | map {addr size : BitVec 32} {flags : BlockFlags} {area : Area}
      (made : s.map addr.toNat size.toNat flags = .ok (some area)) :
      Move s (.map addr size flags) (s.addBlock area)
  | findMap {size align : BitVec 32} {flags : BlockFlags} {area : Area}
      (made : s.findMap size.toNat align.toNat flags = .ok (some area)) :
      Move s (.findMap size align flags) (s.addBlock area)
  | alloc {k : Nat} {size align : BitVec 32} {src : Option Nat} {flags : BlockFlags} {fresh : Nat}
      {b next : Block} {found : Nat} {mapped : Pages} (at_ : s.blocks[k]? = some b)
      (ran : b.alloc s.pages size.toNat src align.toNat flags fresh = .ok (found, mapped, next))
      (inside : b.area.addr ≤ found)
      (placed : Placed b s.pages found (paddedSize (b.area.callFlags src flags) size.toNat)
        (b.area.callFlags src flags) next mapped) :
      Move s (.alloc k size src align flags fresh) (s.put k mapped next)
  | falloc {k : Nat} {addr size : BitVec 32} {src : Option Nat} {flags : BlockFlags} {fresh : Nat}
      {b next : Block} {mapped : Pages} (at_ : s.blocks[k]? = some b)
      (ran : b.falloc s.pages addr.toNat size.toNat src flags fresh = .ok (true, mapped, next))
      (inside : b.area.addr ≤ addr.toNat) (shared : src = none ∨ b.area.isCommon = false)
      (placed : Placed b s.pages (pageStart (b.area.callFlags src flags) addr.toNat)
        (fallocSize (b.area.callFlags src flags) addr.toNat size.toNat) (b.area.callFlags src flags) next
        mapped) :
      Move s (.falloc k addr size src flags fresh) (s.put k mapped next)
  | dealloc {k : Nat} {addr : BitVec 32} {src : Option Nat} {b next : Block} {unmapped : Pages}
      {result : Except Throw Nat} (at_ : s.blocks[k]? = some b)
      (ran : b.dealloc s.pages addr.toNat src = (result, unmapped, next)) :
      Move s (.dealloc k addr src) (s.put k unmapped next)
  | pageProtect {addr size : BitVec 32} {test set clear : PageFlags} {pages : Pages}
      (ran : pageProtect s.pages addr.toNat size.toNat test set clear = .ok (true, pages)) :
      Move s (.pageProtect addr size test set clear) { s with pages := pages }

lemma created_move {c : Call} {result : Except Throw (Option Area)}
    (made : ∀ area, result = .ok (some area) -> s.Move c (s.addBlock area)) :
    s.Move c (s.created result) := by
  unfold created
  split
  next => exact made _ rfl
  next => exact .stay c

lemma dealloc_cases (core : s.Core) (at_ : s.blocks[k]? = some b) {a : Nat} {unmapped : Pages} {block : Block}
    {result : Except Throw Nat} (ran : b.dealloc s.pages a src = (result, unmapped, block)) :
    s.put k unmapped block = s ∨
      ∃ e, b.map.find? a = some e ∧ unmapped = fill s.pages (a / 4096) (e.size / 4096) 0 ∧
        block = b.forget a := by
  cases found : b.map.find? a with
  | none =>
    simp only [Block.dealloc, found, Prod.mk.injEq] at ran
    obtain ⟨_, rfl, rfl⟩ := ran
    exact .inl (put_same at_)
  | some e =>
    by_cases same : src = none ∨ src = e.shm
    · by_cases even : Even s.pages a e.size
      · rw [dealloc_even core at_ found same even] at ran
        obtain ⟨_, rfl, rfl⟩ := ran
        exact .inr ⟨e, rfl, rfl, rfl⟩
      · rw [dealloc_uneven core at_ found same even] at ran
        obtain ⟨_, rfl, rfl⟩ := ran
        exact .inl (put_same at_)
    · have differs : src ≠ none ∧ e.shm ≠ src := by
        simp only [not_or] at same
        exact ⟨same.1, Ne.symm same.2⟩
      simp only [Block.dealloc, found, if_pos differs, Prod.mk.injEq] at ran
      obtain ⟨_, rfl, rfl⟩ := ran
      exact .inl (put_same at_)

lemma step_move {c : Call} (move : s.step c = some next) : s.Move c next := by
  cases c with
  | map addr size flags =>
    cases move
    exact created_move fun area made => .map made
  | findMap size align flags =>
    cases move
    exact created_move fun area made => .findMap made
  | alloc k size src align flags fresh =>
    obtain ⟨b, at_, rfl⟩ := Option.map_eq_some_iff.mp move
    unfold placed
    split
    next found mapped next ran =>
      rcases alloc_placed align.isLt ran with same | ⟨_, inside, _, placed⟩
      · cases same
        rw [put_same at_]
        exact .stay _
      · exact .alloc at_ ran inside placed
    next => exact .stay _
  | falloc k addr size src flags fresh =>
    obtain ⟨b, at_, rfl⟩ := Option.map_eq_some_iff.mp move
    unfold placed
    split
    next success mapped next ran =>
      rcases falloc_placed ran with same | ⟨rfl, inside, shared, _, placed⟩
      · cases same
        rw [put_same at_]
        exact .stay _
      · exact .falloc at_ ran inside shared placed
    next => exact .stay _
  | dealloc k addr src =>
    obtain ⟨b, at_, rfl⟩ := Option.map_eq_some_iff.mp move
    exact .dealloc at_ rfl
  | pageProtect addr size test set clear =>
    simp only [step] at move
    split at move
    next result pages ran =>
      cases move
      cases result with
      | true => exact .pageProtect ran
      | false =>
        rcases pageProtect_cases ran with ⟨rfl, _⟩ | ⟨done, _⟩
        · exact .stay _
        · cases done
    next =>
      cases move
      exact .stay _

lemma Core.move {c : Call} (core : s.Core) (keeps : c.KeepsAllocated) (move : s.Move c next) :
    next.Core := by
  cases move with
  | stay => exact core
  | map made | findMap made => exact core.addBlock _
  | alloc at_ ran inside placed | falloc at_ ran inside shared placed => exact core.placed at_ placed
  | dealloc at_ ran =>
    rcases dealloc_cases core at_ ran with same | ⟨e, found, rfl, rfl⟩
    · rwa [same]
    · exact core.removed at_ found
  | pageProtect ran =>
    apply core.repaint
    intro i
    rcases pageProtect_cases ran with ⟨rfl, _⟩ | ⟨_, _, rfl⟩
    · rfl
    · rcases (protectRange_done s.pages _ _ _ _).written i with same | new
      · rw [same]
      · rw [new, changed_keeps keeps]

end Vm

end EmuCore.Memory
