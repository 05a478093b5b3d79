import EmuCore.Memory.VmMoves

namespace EmuCore.Memory

open PageFlags BlockFlags

-- falloc rounds the address down to a page, which should not be below the block; page_protect should
-- leave page_allocated alone.
def Call.Regular (s : Vm) : Call -> Prop
  | .falloc k addr _ src flags _ => ∀ b ∈ s.blocks[k]?,
    b.area.addr ≤ pageStart (b.area.callFlags src flags) addr.toNat
  | .pageProtect _ _ _ set clear => set &&& allocated = clear &&& allocated
  | _ => True

instance (s : Vm) (c : Call) : Decidable (c.Regular s) :=
  match c with
  | .falloc .. => inferInstanceAs (Decidable (∀ _ ∈ _, _))
  | .pageProtect .. => inferInstanceAs (Decidable (_ = _))
  | .map .. | .findMap .. | .alloc .. | .dealloc .. => inferInstanceAs (Decidable True)

def regularCalls : Transition.System Vm Call := (calls Vm.Empty).guarded fun s c => c.Regular s

lemma Call.Regular.keeps {s : Vm} {c : Call} (regular : c.Regular s) : c.KeepsAllocated := by
  cases c with
  | pageProtect => exact regular
  | map | findMap | alloc | falloc | dealloc => trivial

/-- The start of the block is one of its own pages. -/
def Area.Settled (b : Area) : Prop := b.flags &&& blockSize4k ≠ 0 ∨ b.addr % 0x10000 = 0

namespace Vm

variable {s next : Vm}

def Inside (s : Vm) : Prop :=
  ∀ b ∈ s.blocks, ∀ a e, b.map.find? a = some e ->
    b.area.addr ≤ a ∧ a + e.size ≤ b.area.addr + b.area.size

lemma Inside.addBlock (inside : s.Inside) (area : Area) : (s.addBlock area).Inside := by
  intro b member a e found
  rcases List.mem_append.mp member with old | new
  · exact inside b old a e found
  · obtain rfl := List.mem_singleton.mp new
    cases found

lemma Inside.placed (inside : s.Inside) {k : Nat} {b block : Block} (at_ : s.blocks[k]? = some b)
    {a size : Nat} {bflags : BlockFlags} {mapped : Pages} (from_ : b.area.addr ≤ a)
    (placed : Placed b s.pages a size bflags block mapped) : (s.put k mapped block).Inside := by
  obtain ⟨shm, rfl⟩ := placed.next
  intro b' member a' e found
  rcases List.mem_or_eq_of_mem_set member with kept | rfl
  · exact inside b' kept a' e found
  simp only [Block.record, SortedMap.find?_insert] at found
  split at found
  next here =>
    cases found
    subst here
    exact ⟨from_, placed.bounded⟩
  next => exact inside b (List.mem_of_getElem? at_) a' e found

lemma Inside.removed (inside : s.Inside) {k : Nat} {b : Block} (at_ : s.blocks[k]? = some b)
    (pages : Pages) (a : Nat) : (s.put k pages (b.forget a)).Inside := by
  intro b' member a' e found
  rcases List.mem_or_eq_of_mem_set member with kept | rfl
  · exact inside b' kept a' e found
  simp only [Block.forget, SortedMap.find?_erase] at found
  split at found
  next => cases found
  next => exact inside b (List.mem_of_getElem? at_) a' e found

lemma Inside.move {c : Call} (core : s.Core) (inside : s.Inside) (regular : c.Regular s) (move : s.Move c next) :
    next.Inside := by
  cases move with
  | stay => exact inside
  | map made | findMap made => exact inside.addBlock _
  | alloc at_ ran from_ placed => exact inside.placed at_ from_ placed
  | falloc at_ ran from_ shared placed => exact inside.placed at_ (regular _ at_) placed
  | dealloc at_ ran =>
    rcases dealloc_cases core at_ ran with same | ⟨e, _, rfl, rfl⟩
    · rwa [same]
    · exact inside.removed at_ _ _
  | pageProtect ran => exact inside

lemma regularCalls_inv (reach : regularCalls.Reachable s) : s.Core ∧ s.Inside := by
  refine reach.invariant (P := fun s => s.Core ∧ s.Inside) ?_ ?_
  · intro s empty
    refine ⟨empty.core, fun b member a e found => ?_⟩
    rw [empty.2 b member] at found
    cases found
  · rintro s c next ⟨core, inside⟩ move
    obtain ⟨regular, move⟩ := Transition.System.guarded_step move
    have moved := step_move move
    exact ⟨core.move regular.keeps moved, inside.move core regular moved⟩

/-- Every block's entries are disjoint ranges of whole pages inside the block, and the allocated
pages are those that are in exactly one entry of all blocks. -/
structure Layout (s : Vm) : Prop where
  inside : ∀ b ∈ s.blocks, ∀ a e, b.map.find? a = some e ->
    0 < e.size ∧ (a % 4096 = 0 ∧ e.size % 4096 = 0) ∧
      b.area.addr ≤ a ∧ a + e.size ≤ b.area.addr + b.area.size
  disjoint : ∀ b ∈ s.blocks, ∀ a e a' e', b.map.find? a = some e -> b.map.find? a' = some e' ->
    a ≠ a' -> a + e.size ≤ a' ∨ a' + e'.size ≤ a
  allocated_iff : ∀ i, s.pages i &&& allocated ≠ 0 ↔
    ∃! place : Nat × Nat, ∃ e, s.Holds place.1 place.2 e ∧ Within i place.2 e.size

lemma Core.layout (core : s.Core) (inside : s.Inside) : s.Layout := by
  constructor
  case inside =>
    intro b member a e found
    obtain ⟨k, at_⟩ := List.getElem?_of_mem member
    obtain ⟨filled, paged, _⟩ := core.entries ((holds_here at_).mpr found)
    exact ⟨filled, paged, inside b member a e found⟩
  case disjoint =>
    intro b member a e a' e' found found' differs
    obtain ⟨k, at_⟩ := List.getElem?_of_mem member
    have holds := (holds_here at_).mpr found
    have holds' := (holds_here at_).mpr found'
    obtain ⟨filled, paged, _⟩ := core.entries holds
    obtain ⟨filled', paged', _⟩ := core.entries holds'
    by_contra overlap
    refine differs (core.apart (i := max a a' / 4096) holds holds' ?_ ?_).2 <;>
      simp only [Within] <;> omega
  case allocated_iff =>
    intro i
    constructor
    · intro used
      obtain ⟨k, a, e, holds, within⟩ := core.owned used
      refine ⟨(k, a), ⟨e, holds, within⟩, ?_⟩
      rintro ⟨k', a'⟩ ⟨e', holds', within'⟩
      obtain ⟨rfl, rfl⟩ := core.apart holds' holds within' within
      rfl
    · rintro ⟨_, ⟨e, holds, within⟩, _⟩
      exact core.used holds within

variable {k : Nat} {b : Block}

def AllocExact (s : Vm) (k : Nat) (b : Block) (size align : BitVec 32) (src : Option Nat)
    (flags : BlockFlags) (fresh : Nat) : Prop :=
  (∃ found next mapped,
    b.alloc s.pages size.toNat src align.toNat flags fresh = .ok (found, mapped, next) ∧
    found ≠ 0 ∧ align.toNat ∣ found ∧ b.area.addr ≤ found ∧
    size.toNat ≤ paddedSize (b.area.callFlags src flags) size.toNat ∧
    Placed b s.pages found (paddedSize (b.area.callFlags src flags) size.toNat)
      (b.area.callFlags src flags) next mapped) ∨
  (∀ found mapped next,
    b.alloc s.pages size.toNat src align.toNat flags fresh = .ok (found, mapped, next) -> found = 0) ∧
    s.step (.alloc k size src align flags fresh) = some s

def FallocExact (s : Vm) (k : Nat) (b : Block) (addr size : BitVec 32) (src : Option Nat)
    (flags : BlockFlags) (fresh : Nat) : Prop :=
  (∃ next mapped,
    b.falloc s.pages addr.toNat size.toNat src flags fresh = .ok (true, mapped, next) ∧
    size.toNat ≤ fallocSize (b.area.callFlags src flags) addr.toNat size.toNat ∧
    Placed b s.pages (pageStart (b.area.callFlags src flags) addr.toNat)
      (fallocSize (b.area.callFlags src flags) addr.toNat size.toNat) (b.area.callFlags src flags) next
      mapped) ∨
  (∀ mapped next,
    b.falloc s.pages addr.toNat size.toNat src flags fresh ≠ .ok (true, mapped, next)) ∧
    s.step (.falloc k addr size src flags fresh) = some s

lemma alloc_exact (at_ : s.blocks[k]? = some b) (positive : b.area.addr ≠ 0) (size align : BitVec 32)
    (src : Option Nat) (flags : BlockFlags) (fresh : Nat) :
    s.AllocExact k b size align src flags fresh := by
  unfold AllocExact
  simp only [step, at_, Option.map_some]
  cases ran : b.alloc s.pages size.toNat src align.toNat flags fresh with
  | error thrown =>
    refine .inr ⟨fun _ _ _ done => ?_, rfl⟩
    cases done
  | ok result =>
    obtain ⟨found, mapped, next⟩ := result
    rcases alloc_placed align.isLt ran with same | ⟨multiple, inside, enough, placed⟩
    · obtain ⟨rfl, rest⟩ := Prod.mk.inj same
      obtain ⟨rfl, rfl⟩ := Prod.mk.inj rest
      refine .inr ⟨fun _ _ _ done => (Prod.mk.inj (Except.ok.inj done)).1.symm, ?_⟩
      exact congrArg some (put_same at_)
    · have notNull : found ≠ 0 := by omega
      exact .inl ⟨found, next, mapped, rfl, notNull, multiple, inside, enough, placed⟩

lemma falloc_exact (at_ : s.blocks[k]? = some b) (addr size : BitVec 32) (src : Option Nat)
    (flags : BlockFlags) (fresh : Nat) : s.FallocExact k b addr size src flags fresh := by
  unfold FallocExact
  simp only [step, at_, Option.map_some]
  cases ran : b.falloc s.pages addr.toNat size.toNat src flags fresh with
  | error thrown =>
    refine .inr ⟨fun _ _ done => ?_, rfl⟩
    cases done
  | ok result =>
    obtain ⟨success, mapped, next⟩ := result
    rcases falloc_placed ran with same | ⟨rfl, _, _, enough, placed⟩
    · obtain ⟨rfl, rest⟩ := Prod.mk.inj same
      obtain ⟨rfl, rfl⟩ := Prod.mk.inj rest
      refine .inr ⟨fun _ _ done => ?_, congrArg some (put_same at_)⟩
      cases done
    · exact .inl ⟨next, mapped, rfl, enough, placed⟩

end Vm

def lone (addr size : Nat) (flags : BlockFlags) : Vm :=
  ⟨fun _ => 0, (Area.make? addr size flags).toList.map fun area => ⟨area, ∅⟩⟩

def top : Vm := lone 0xF0000000 0x10000000 blockSize64k

def topCalls : List Call :=
  [.alloc 0 0x18000 none 0x10000 0 7, .falloc 0 0xFFFF0000 0x10000 none 0 8,
    .pageProtect 0xF0000000 0x10000 0 0 writable, .dealloc 0 0xF0000000 none]

lemma top_empty : top.Empty := ⟨fun _ => rfl, by decide⟩

def outcome (s : Vm) (actions : List Call) (page : Nat) (flag : PageFlags) :
    Option (List (List (Nat × Entry)) × PageFlags) :=
  ((calls Vm.Empty).run s actions).map fun s =>
    (s.blocks.map fun b => b.map.entries, s.pages page &&& flag)

end EmuCore.Memory
