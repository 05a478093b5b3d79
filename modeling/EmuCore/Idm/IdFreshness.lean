import EmuCore.Idm.IdManager

namespace EmuCore.Idm

open BitField List Function Nat Bool BitVec

variable {τ O : Type} {family : Family τ}

def Family.counter (family : Family τ) (id : Id) : Nat := extract id family.first family.bits

lemma mask_bit (family : Family τ) (j : Nat) :
    family.mask.getLsbD j = decide (j < 32 ∧ family.first ≤ j ∧ j < family.first + family.bits) := by
  have ones (k : Nat) : ((1 : Id) <<< family.bits - 1).getLsbD k = decide (k < family.bits) := by
    have bitsLess := family.bitsLess
    have power : ((1 : Id) <<< family.bits).toNat = 2 ^ family.bits := by
      rw [toNat_shiftLeft, Nat.shiftLeft_eq]
      have below : 2 ^ family.bits < 2 ^ 32 := Nat.pow_lt_pow_right (by omega) bitsLess
      simpa using below
    have below : (1 : Id) ≤ (1 : Id) <<< family.bits := by
      rw [le_def, power]
      exact Nat.one_le_two_pow
    rw [← testBit_toNat, toNat_sub_of_le below, power]
    exact testBit_two_pow_sub_one _ _
  rw [Family.mask, getLsbD_shiftLeft, ones, Bool.eq_iff_iff]
  simp only [and_eq_true, not_eq_true', decide_eq_true_eq, decide_eq_false_iff_not]
  omega

variable {id : Id}

lemma bit_of_counter_zero (zero : family.counter id = 0) {j : Nat} (low : family.first ≤ j)
    (high : j < family.first + family.bits) : id.getLsbD j = false := by
  have bit := testBit_extract (x := id) family.range (j - family.first)
  rw [show extract id family.first family.bits = 0 from zero, zero_testBit] at bit
  simpa [show j - family.first < family.bits by omega, Nat.add_sub_cancel' low] using bit.symm

section

variable {slot : Id} (zero : family.counter slot = 0)

include zero

lemma unmasked (value : Id) :
    (slot ||| (value &&& family.mask)) &&& ~~~family.mask = slot := by
  apply eq_of_getLsbD_eq
  intro j inside
  rw [getLsbD_and, getLsbD_or, getLsbD_and, getLsbD_not, mask_bit]
  by_cases within : family.first ≤ j ∧ j < family.first + family.bits
  · rw [bit_of_counter_zero zero within.1 within.2]
    simp [inside, within]
  · simp [inside, within]

lemma unmasked_slot : slot &&& ~~~family.mask = slot := by
  have same := unmasked zero 0#32
  rwa [BitVec.zero_and, BitVec.or_zero] at same

lemma counter_or (value : Id) :
    family.counter (slot ||| (value &&& family.mask)) = family.counter value := by
  have range := family.range
  apply eq_of_testBit_eq
  intro k
  rw [Family.counter, Family.counter, testBit_extract range, testBit_extract range]
  by_cases low : k < family.bits
  · have bit := bit_of_counter_zero zero (j := family.first + k) (by omega) (by omega)
    rw [getLsbD_or, getLsbD_and, bit, mask_bit]
    simp [low, show family.first + k < 32 by omega]
  · simp [low]

end

lemma counter_eq (family : Family τ) (id : Id) :
    family.counter id = id.toNat / 2 ^ family.first % 2 ^ family.bits := by
  apply eq_of_testBit_eq
  intro k
  rw [Family.counter, testBit_extract family.range, testBit_mod_two_pow, testBit_div_two_pow, add_comm,
    testBit_toNat]

lemma counter_add (used : family.bits ≠ 0) (value : Id) :
    family.counter (value + (1 : Id) <<< family.first) = (family.counter value + 1) % 2 ^ family.bits := by
  have range := family.range
  have firstLess : family.first < 32 := by omega
  have power : ((1 : Id) <<< family.first).toNat = 2 ^ family.first := by
    rw [toNat_shiftLeft, Nat.shiftLeft_eq]
    have below : 2 ^ family.first < 2 ^ 32 := Nat.pow_lt_pow_right (by omega) firstLess
    simpa using below
  have size : 2 ^ 32 = 2 ^ family.first * 2 ^ (32 - family.first) := by
    rw [← pow_add, Nat.add_sub_cancel' firstLess.le]
  have divides : 2 ^ family.bits ∣ 2 ^ (32 - family.first) := pow_dvd_pow 2 (by omega)
  rw [counter_eq, counter_eq, toNat_add, power, size, mod_mul_right_div_self,
    mod_mod_of_dvd _ divides, add_div_right _ (Nat.two_pow_pos _), mod_add_mod]

lemma slot_counter (family : Family τ) (t : τ) {i : Nat} (inside : i < family.count) :
    family.counter (family.slotId t i) = 0 := family.clear t i inside

lemma nextId_unmasked (t : τ) {i : Nat} (inside : i < family.count) (value : Id) :
    family.nextId t i value &&& ~~~family.mask = family.slotId t i := by
  rw [Family.nextId]
  split
  next => exact unmasked (slot_counter family t inside) _
  next => rw [BitVec.and_zero, BitVec.or_zero, unmasked_slot (slot_counter family t inside)]

lemma nextId_counter (t : τ) {i : Nat} (inside : i < family.count) (value : Id) :
    family.counter (family.nextId t i value) = (family.counter value + 1) % 2 ^ family.bits := by
  rw [Family.nextId]
  split
  next used => rw [counter_or (slot_counter family t inside), counter_add used]
  next unused =>
    have zero : family.bits = 0 := not_not.mp unused
    rw [counter_eq, zero, pow_zero, mod_one, mod_one]

variable {t : τ}

lemma getIndex_slot (inside : family.getIndex t id < family.count) :
    id &&& ~~~family.mask = family.slotId t (family.getIndex t id) := by
  rw [Family.getIndex] at inside ⊢
  split at inside
  next => exact absurd inside (lt_irrefl _)
  next exact' =>
    have exact' : ((id &&& ~~~family.mask) - family.base t) % family.step = 0 := not_not.mp exact'
    simp only [exact', ne_eq, not_true_eq_false, if_false]
    generalize diffEq : (id &&& ~~~family.mask) - family.base t = diff at exact' inside
    have whole : diff = family.step * BitVec.ofNat 32 (diff / family.step).toNat := by
      apply eq_of_toNat_eq
      have remainder : diff.toNat % family.step.toNat = 0 := by
        rw [← toNat_umod, exact']
        rfl
      rw [BitVec.ofNat_toNat, setWidth_eq, toNat_mul, toNat_udiv,
        Nat.mul_div_cancel' (dvd_of_mod_eq_zero remainder), mod_eq_of_lt diff.isLt]
    rw [Family.slotId, ← whole, ← diffEq, BitVec.add_comm, BitVec.sub_add_cancel]

def Follows (family : Family τ) (before after : Id) : Prop :=
  family.counter after = (family.counter before + 1) % 2 ^ family.bits

lemma counter_chain {before last : Id} {between : List Id}
    (chain : (before :: between ++ [last]).IsChain (Follows family)) :
    family.counter last = (family.counter before + (between.length + 1)) % 2 ^ family.bits := by
  induction between generalizing before with
  | nil => exact (isChain_cons_cons.mp chain).1
  | cons first rest ih =>
    obtain ⟨follows, chain⟩ := isChain_cons_cons.mp chain
    rw [ih chain, follows, mod_add_mod, length_cons]
    congr 1
    omega

lemma repeated_far {ids front between back : List Id} (chain : ids.IsChain (Follows family))
    (split : ids = front ++ id :: between ++ id :: back) : 2 ^ family.bits - 1 ≤ between.length := by
  have part : (id :: between ++ [id]).IsChain (Follows family) := by
    have same : ids = front ++ (id :: between ++ [id]) ++ back := by rw [split]; simp
    rw [same] at chain
    exact (isChain_append.mp (isChain_append.mp chain).1).2.1
  have again := counter_chain part
  have less : family.counter id < 2 ^ family.bits := extract_lt family.range
  have divides : 2 ^ family.bits ∣ between.length + 1 := by
    have same : (family.counter id + (between.length + 1)) % 2 ^ family.bits =
        (family.counter id + 0) % 2 ^ family.bits := by
      rw [← again, add_zero, mod_eq_of_lt less]
    have congruent : between.length + 1 ≡ 0 [MOD 2 ^ family.bits] := Nat.ModEq.add_left_cancel' _ same
    exact modEq_zero_iff_dvd.mp congruent
  have bound := le_of_dvd (by omega) divides
  omega

def Plain (family : Family τ) (log : List Event) (index : Nat) : Prop :=
  .imported index ∉ log ∧ ∀ before, .failed index before ∈ log -> family.counter before = 0

structure Invariant (family : Family τ) (s : Map τ O) : Prop where
  bounded : s.highestIndex ≤ family.count
  held : ∀ i object, s.data i = some object -> i < s.highestIndex ∧ s.keys i = ⟨object.id, family.typeId object.type⟩ ∧
    object.id &&& ~~~family.mask = family.slotId object.type i
  free : ∀ i, s.data i = none -> (s.keys i).free = true
  used : ∀ i, s.highestIndex ≤ i -> s.ids i = []
  chain : ∀ i, Plain family s.log i -> (s.ids i).IsChain (Follows family) ∧
    ∀ last, (s.ids i).getLast? = some last -> family.counter (s.keys i).value = family.counter last

variable {index : Nat}

lemma Plain.of_append {log more : List Event} (plain : Plain family (log ++ more) index) :
    Plain family log index :=
  ⟨fun member => plain.1 (mem_append_left _ member), fun before member => plain.2 before (mem_append_left _ member)⟩

lemma free_ne {key : Key} (same : key.type = family.typeId t) : key.free = false := by
  rw [Key.free, same]
  simpa using family.proper t

lemma counter_zero (family : Family τ) : family.counter 0 = 0 := by
  rw [counter_eq]
  simp

variable {s : Map τ O}

lemma Invariant.vacant (inv : Invariant family s) {i : Nat} (free : (s.keys i).free = true) :
    s.data i = none := by
  cases held : s.data i with
  | none => rfl
  | some object =>
    obtain ⟨_, key, _⟩ := inv.held i object held
    rw [key, free_ne rfl] at free
    cases free

lemma Invariant.raise (inv : Invariant family s) {highest : Nat} (more : s.highestIndex ≤ highest)
    (bounded : highest ≤ family.count) : Invariant family { s with highestIndex := highest } where
  __ := inv
  bounded := bounded
  held := fun i object held => ⟨(inv.held i object held).1.trans_le more, (inv.held i object held).2⟩
  used := fun i above => inv.used i (more.trans above)

structure Allocated (family : Family τ) (s : Map τ O) (t : τ) (index : Nat) (id : Id) (imports : Bool)
    (after : Map τ O) : Prop where
  inside : index < after.highestIndex
  free : (s.keys index).free = true
  keys : after.keys = Function.update s.keys index ⟨id, family.typeId t⟩
  data : after.data = s.data
  log : after.log = s.log ++ if imports then [.imported index] else []
  higher : s.highestIndex ≤ after.highestIndex
  bounded : after.highestIndex ≤ family.count
  slot : id &&& ~~~family.mask = family.slotId t index
  follows : imports = false -> s.ids index = [] ∨ Follows family (s.keys index).value id

variable {after : Map τ O}

variable (inv : Invariant family s)

include inv

lemma allocateId_cases {dstId : Id} {place : Option Nat}
    (allocated : allocateId family s t dstId = some (after, place)) :
    (place = none ∧ Invariant family after) ∨
      ∃ index id imports, place = some index ∧ Allocated family s t index id imports after := by
  rw [allocateId] at allocated
  split at allocated
  next =>
    dsimp only at allocated
    split at allocated
    next inside =>
      have higher : s.highestIndex ≤ max s.highestIndex (family.getIndex t dstId + 1) := le_max_left _ _
      have bounded : max s.highestIndex (family.getIndex t dstId + 1) ≤ family.count := max_le inv.bounded inside
      split at allocated
      next free =>
        cases allocated
        exact .inr ⟨_, dstId, true, rfl, lt_max_of_lt_right (lt_succ_self _), free, rfl, rfl, rfl, higher, bounded,
          getIndex_slot inside, fun none => by cases none⟩
      next =>
        cases allocated
        exact .inl ⟨rfl, inv.raise higher bounded⟩
    next => cases allocated
  split at allocated
  next append =>
    cases allocated
    have empty := inv.used s.highestIndex (le_refl _)
    have vacant : s.data s.highestIndex = none := by
      cases held : s.data s.highestIndex with
      | none => rfl
      | some object => exact absurd (inv.held _ object held).1 (lt_irrefl _)
    exact .inr ⟨_, _, false, rfl, lt_succ_self _, inv.free _ vacant, rfl, rfl, (append_nil _).symm,
      le_succ _, append.2, unmasked_slot (slot_counter family t append.2), fun _ => .inl empty⟩
  next full =>
    have raised : ∃ highest, s.highestIndex ≤ highest ∧ highest = family.count ∧
        (if family.lowest t then { s with highestIndex := family.count } else s) =
          { s with highestIndex := highest } := by
      cases lowest : family.lowest t with
      | true => exact ⟨family.count, inv.bounded, rfl, rfl⟩
      | false =>
        have above : family.count ≤ s.highestIndex := not_lt.mp fun less => full ⟨lowest, less⟩
        exact ⟨s.highestIndex, le_refl _, le_antisymm inv.bounded above, rfl⟩
    obtain ⟨highest, higher, isCount, same⟩ := raised
    simp only [same] at allocated
    split at allocated
    next i found =>
      cases allocated
      have inside : i < family.count := mem_range.mp (mem_of_find?_eq_some found)
      have free : (s.keys i).free = true := find?_some (p := fun i => (s.keys i).free) found
      exact .inr ⟨i, _, false, rfl, isCount ▸ inside, free, rfl, rfl, (append_nil _).symm,
        higher, isCount.le, nextId_unmasked t inside _, fun _ => .inr (nextId_counter t inside _)⟩
    next =>
      cases allocated
      exact .inl ⟨rfl, inv.raise higher isCount.le⟩

omit inv in
lemma ids_append (s : Map τ O) (more : List Event) (index : Nat) :
    (s.log ++ more).filterMap (Event.idOf index) = s.ids index ++ more.filterMap (Event.idOf index) :=
  filterMap_append

lemma Invariant.change (index : Nat) (bounded : after.highestIndex ≤ family.count)
    (higher : s.highestIndex ≤ after.highestIndex)
    (others : ∀ i, i ≠ index -> after.keys i = s.keys i ∧ after.data i = s.data i ∧ after.ids i = s.ids i)
    (plain : ∀ i, Plain family after.log i -> Plain family s.log i)
    (held : ∀ object, after.data index = some object -> index < after.highestIndex ∧
      after.keys index = ⟨object.id, family.typeId object.type⟩ ∧
      object.id &&& ~~~family.mask = family.slotId object.type index)
    (free : after.data index = none -> (after.keys index).free = true)
    (used : after.highestIndex ≤ index -> after.ids index = [])
    (chain : Plain family after.log index -> (after.ids index).IsChain (Follows family) ∧
      ∀ last, (after.ids index).getLast? = some last -> family.counter (after.keys index).value = family.counter last) :
    Invariant family after := by
  constructor
  case bounded => exact bounded
  case held =>
    intro i object at_
    by_cases here : i = index
    · subst here
      exact held object at_
    · obtain ⟨keys, data, -⟩ := others i here
      obtain ⟨inside, key, slot⟩ := inv.held i object (data ▸ at_)
      exact ⟨inside.trans_le higher, keys.trans key, slot⟩
  case free =>
    intro i vacant
    by_cases here : i = index
    · subst here
      exact free vacant
    · obtain ⟨keys, data, -⟩ := others i here
      rw [keys]
      exact inv.free i (data ▸ vacant)
  case used =>
    intro i above
    by_cases here : i = index
    · subst here
      exact used above
    · exact (others i here).2.2.trans (inv.used i (higher.trans above))
  case chain =>
    intro i now
    by_cases here : i = index
    · subst here
      exact chain now
    · obtain ⟨keys, -, ids⟩ := others i here
      rw [ids, keys]
      exact inv.chain i (plain i now)

section

variable {imports : Bool} (allocated : Allocated family s t index id imports after)

include allocated

lemma Allocated.issue (object : O) :
    Invariant family { after with
      data := update after.data index (some ⟨t, id, object⟩)
      log := after.log ++ [.issued index id] } := by
  have ids (i : Nat) : (after.log ++ [Event.issued index id]).filterMap (Event.idOf i) =
      s.ids i ++ if index = i then [id] else [] := by
    rw [allocated.log, List.append_assoc, ids_append]
    by_cases here : index = i <;> cases imports <;> simp [Event.idOf, here, filterMap_cons]
  have key : after.keys index = ⟨id, family.typeId t⟩ := by rw [allocated.keys, update_self]
  have old {i : Nat} (plain : Plain family (after.log ++ [.issued index id]) i) : Plain family s.log i :=
    (allocated.log ▸ plain.of_append).of_append
  refine inv.change index allocated.bounded allocated.higher (fun i other => ⟨?_, ?_, ?_⟩) (fun _ => old)
    (fun other held => ?_) (fun vacant => ?_) (fun above => absurd allocated.inside (not_lt.mpr above)) fun plain => ?_
  · rw [allocated.keys, update_of_ne other]
  · exact (update_of_ne other _ _).trans (congrFun allocated.data i)
  · rw [Map.ids, ids, if_neg other.symm, append_nil]
  · obtain rfl := Option.some.inj ((update_self index _ _).symm.trans held)
    exact ⟨allocated.inside, key, allocated.slot⟩
  · cases (update_self index _ _).symm.trans vacant
  obtain ⟨chain, last⟩ := inv.chain index (old plain)
  have notImported : imports = false := by
    cases imports with
    | false => rfl
    | true => exact absurd (by simp [allocated.log]) plain.1
  rw [Map.ids, ids, if_pos rfl]
  refine ⟨isChain_append.mpr ⟨chain, isChain_singleton id, fun before isLast other isFirst => ?_⟩, ?_⟩
  · obtain rfl : id = other := by simpa using isFirst
    rcases allocated.follows notImported with empty | follows
    · rw [empty] at isLast
      cases isLast
    · rw [Follows, ← last before isLast]
      exact follows
  · intro newest isLast
    obtain rfl : id = newest := by simpa using isLast
    rw [key]

lemma Allocated.fail :
    Invariant family { after.setKey index .empty with log := after.log ++ [.failed index (s.keys index).value] } := by
  have ids (i : Nat) :
      (after.log ++ [Event.failed index (s.keys index).value]).filterMap (Event.idOf i) = s.ids i := by
    rw [allocated.log, List.append_assoc, ids_append]
    cases imports <;> simp [Event.idOf]
  have old {i : Nat} (plain : Plain family (after.log ++ [.failed index (s.keys index).value]) i) :
      Plain family s.log i := (allocated.log ▸ plain.of_append).of_append
  refine inv.change index allocated.bounded allocated.higher (fun i other => ⟨?_, ?_, ids i⟩) (fun _ => old)
    (fun object held => ?_) (fun _ => ?_) (fun above => absurd allocated.inside (not_lt.mpr above)) fun plain => ?_
  · simp only [Map.setKey, allocated.keys, update_of_ne other]
  · exact congrFun allocated.data i
  · cases (inv.vacant allocated.free).symm.trans (allocated.data ▸ held)
  · simp only [Map.setKey, update_self]
    rfl
  obtain ⟨chain, last⟩ := inv.chain index (old plain)
  rw [Map.ids, ids]
  refine ⟨chain, fun newest isLast => ?_⟩
  rw [← last newest isLast, plain.2 (s.keys index).value (by simp)]
  simp only [Map.setKey, update_self]
  exact counter_zero family

end

lemma Invariant.create {provider : Option O} {dstId : Id}
    (created : createId family s t provider dstId = some after) : Invariant family after := by
  obtain ⟨⟨middle, place⟩, allocation, rfl⟩ := Option.map_eq_some_iff.mp created
  rcases allocateId_cases inv allocation with ⟨rfl, invMiddle⟩ | ⟨index, id, imports, rfl, allocated⟩
  · exact invMiddle
  have value : (middle.keys index).value = id := by rw [allocated.keys, update_self]
  cases provider with
  | some object =>
    simp only [value]
    exact allocated.issue inv object
  | none => exact allocated.fail inv

lemma Invariant.remove (t : τ) (id : Id) :
    Invariant family (remove family s t id) := by
  rw [Idm.remove]
  split
  next => exact inv
  split
  next =>
    refine inv.change (family.getIndex t id) inv.bounded le_rfl (fun i other => ⟨?_, ?_, rfl⟩) (fun _ plain => plain)
      (fun object held => ?_) (fun _ => ?_) (inv.used _) fun plain => ?_
    · simp only [Map.setKey, update_of_ne other]
    · exact update_of_ne other _ _
    · cases (update_self (family.getIndex t id) _ _).symm.trans held
    · simp only [Map.setKey, update_self]
      rfl
    simp only [Map.setKey, update_self]
    exact inv.chain _ plain
  next => exact inv

omit inv in
lemma reachable_invariant (reach : (system family O).Reachable s) : Invariant family s := by
  refine reach.invariant (P := Invariant family) (fun s start => ?_) fun s action next inv move => ?_
  · cases start
    refine ⟨zero_le _, fun _ _ held => ?_, fun _ _ => rfl, fun _ _ => rfl,
      fun _ _ => ⟨isChain_nil, fun _ isLast => ?_⟩⟩
    · cases held
    · cases isLast
  · cases action with
    | create t provider dstId => exact inv.create move
    | remove t id =>
      cases move
      exact inv.remove t id

lemma findId_issued {object : Object τ O} (found : findId family s t id = some object) :
    object.id = id := by
  rw [findId, findIndex] at found
  obtain ⟨below, found⟩ := Option.ite_none_left_eq_some.mp found
  obtain ⟨data, checks⟩ := Option.filter_eq_some_iff.mp found
  obtain ⟨_, key, slot⟩ := inv.held _ object data
  rw [key, and_eq_true, or_eq_true, or_eq_true, beq_iff_eq, beq_iff_eq, beq_iff_eq] at checks
  obtain ⟨type, none | same⟩ := checks
  · have base : family.base object.type = family.base t := by
      rcases type with table | same
      · exact family.untyped t object.type table
      · exact family.typed object.type t same
    have inside : family.getIndex t id < family.count := (not_le.mp below).trans_le inv.bounded
    have slots : object.id &&& ~~~family.mask = id &&& ~~~family.mask := by
      rw [slot, getIndex_slot inside, Family.slotId, Family.slotId, base]
    have unmaskedAll (id : Id) : id &&& ~~~family.mask = id := by
      refine unmasked_slot ?_
      rw [counter_eq, none, pow_zero, mod_one]
    rwa [unmaskedAll, unmaskedAll] at slots
  · exact same

omit inv

theorem ids_not_confused {s : Map τ O} (reach : (system family O).Reachable s) :
    (∀ i j first second, s.data i = some first -> s.data j = some second -> first.id = second.id -> i = j) ∧
    (∀ t id object, findId family s t id = some object -> object.id = id) ∧
    ∀ index, Plain family s.log index -> ∀ front id between back,
      s.ids index = front ++ id :: between ++ id :: back -> 2 ^ family.bits - 1 ≤ between.length := by
  have inv := reachable_invariant reach
  refine ⟨fun i j first second atFirst atSecond same => ?_, fun t id object => findId_issued inv,
    fun index plain front id between back => repeated_far (inv.chain index plain).1⟩
  obtain ⟨insideFirst, _, slotFirst⟩ := inv.held i first atFirst
  obtain ⟨insideSecond, _, slotSecond⟩ := inv.held j second atSecond
  refine family.apart first.type second.type i j (insideFirst.trans_le inv.bounded)
    (insideSecond.trans_le inv.bounded) ?_
  exact slotFirst.symm.trans ((congrArg (· &&& ~~~family.mask) same).trans slotSecond)

def ppuThreads : Family Unit where
  step := 1
  count := 100
  first := 12
  bits := 12
  base := fun _ => 0x01000000
  typeId := fun _ => 0x01000000
  lowest := fun _ => false
  isTable := fun _ => true
  stepPos := by decide
  fits := fun _ => by decide
  range := by decide
  bitsLess := by decide
  clear := fun _ => by decide +kernel
  apart := fun _ _ i j insideFirst insideSecond same => by
    have same : (0x01000000#32 + 1#32 * BitVec.ofNat 32 i) = 0x01000000#32 + 1#32 * BitVec.ofNat 32 j := same
    bv_omega
  typed := fun _ _ _ => rfl
  untyped := fun _ _ _ => rfl
  proper := fun _ => by decide

def noThreads : Map Unit Unit := ⟨fun _ => .empty, fun _ => none, 0, []⟩

def refill : List (Action Unit Unit) :=
  replicate 100 (.create () (some ()) 0) ++
    [.remove () 0x01000000, .create () (some ()) 0, .remove () 0x01001000, .create () none 0, .create () (some ()) 0]

theorem id_issued_again : ((system ppuThreads Unit).run noThreads refill).map (·.ids 0) =
    some [0x01000000, 0x01001000, 0x01001000] := by
  decide +kernel

theorem ids_not_confused_ppu : ∃ s : Map Unit Unit, (system ppuThreads Unit).Reachable s ∧ s.ids 0 = [0x01000000] ∧
    ∀ t id object, findId ppuThreads s t id = some object -> object.id = id := by
  have start : (system ppuThreads Unit).Reachable noThreads := .init rfl
  have reach := start.run [.create () (some ()) 0] rfl
  exact ⟨_, reach, rfl, (ids_not_confused reach).2.1⟩

end EmuCore.Idm
