import EmuCore.Cell.LFQueue

namespace EmuCore.Cell.LFQueue

open BitVec Nat

section Round

variable {depth : Nat} {distance : Int -> Int} {ready : Int -> Bool} {detached : Bool} {call : Call}
  {old word : Word} {pointer : Option Int} {code : Code}

lemma pointerRound_store : pointerRound depth distance ready detached call old = .store word pointer code ->
    (word.completed = old.completed ∧ word.mask = old.mask) ∧
      ((pointer = none ∧ word.next = old.next) ∨
        (pointer = some old.next.toInt ∧
          word.next = (if old.next.toInt + 1 ≥ depth * 2 then 0#16 else old.next + 1#16) ∧
          ready (wrapped depth (distance old.next.toInt)) = true)) := by
  obtain ⟨same, kept⟩ : ((if call.var1 then { old with waiting := 0 } else old).completed = old.completed ∧
      (if call.var1 then { old with waiting := 0 } else old).mask = old.mask) ∧
      (if call.var1 then { old with waiting := 0 } else old).next = old.next := by
    split <;> exact ⟨⟨rfl, rfl⟩, rfl⟩
  fun_cases pointerRound depth distance ready detached call old with
  | case2 | case7 =>
    intro stored
    obtain ⟨rfl, rfl, _⟩ := Round.store.inj stored
    exact ⟨same, .inl ⟨rfl, kept⟩⟩
  | case3 current _ _ next free =>
    intro stored
    obtain ⟨rfl, rfl, _⟩ := Round.store.inj stored
    have kept : current.next = old.next := kept
    simp only [next, kept] at free ⊢
    exact ⟨same, .inr ⟨trivial, trivial, free⟩⟩
  | _ => rintro ⟨⟩

end Round

def State.ready (side : Side) (depth : Nat) (s : State) : Prop :=
  match side with
  | .push => s.outstanding side depth < depth
  | .pop => 0 < s.outstanding side depth

structure Inv (side : Side) (depth : Nat) (s : State) : Prop where
  next : s.own.next.toNat < 2 * depth
  other : s.other.toNat < 2 * depth
  few : s.outstanding side depth ≤ depth
  inRange : ∀ pos ∈ s.handed, 0 ≤ pos ∧ pos < 2 * depth
  consecutive : s.handed.IsChain fun later earlier : Int => later = (earlier + 1) % (2 * depth)
  latest : ∀ pos ∈ s.handed.head?, (s.own.next.toNat : Int) = (pos + 1) % (2 * depth)

section Small

variable {side : Side} {depth : Nat} {s next : State}

lemma toInt_small {h : BitVec 16} (small : h.toNat < 0x8000) : h.toInt = h.toNat :=
  toInt_eq_toNat_of_lt (by omega)

lemma next_moved {h : BitVec 16} (small : depth ≤ 0x4000) (inside : h.toNat < 2 * depth) :
    (if h.toInt + 1 ≥ depth * 2 then 0#16 else h + 1#16).toNat = (h.toNat + 1) % (2 * depth) := by
  rw [toInt_small (by omega), Circular.add_mod_eq inside (by omega)]
  split_ifs with last
  · omega
  · rw [toNat_ofNat]
    omega
  · rw [toNat_add, toNat_ofNat]
    omega
  · omega

lemma wrapped_ahead {lead follow : Nat} (leads : lead < 2 * depth) (follows : follow < 2 * depth) :
    wrapped depth ((lead : Int) - follow) = Circular.ahead (2 * depth) lead follow := by
  rw [wrapped, Circular.ahead_eq leads follows]
  split_ifs <;> omega

lemma mod_succ {pos : Nat} : (((pos + 1) % (2 * depth) : Nat) : Int) = ((pos : Int) + 1) % (2 * depth) := by
  push_cast
  rfl

lemma round_spec (small : depth ≤ 0x4000) (inv : Inv side depth s) (call : Call) :
    ∃ word, s.take (s.round side depth call) = { s with own := word } ∧ word.next = s.own.next ∨
      s.take (s.round side depth call) =
          { s with own := word, handed := (s.own.next.toNat : Int) :: s.handed } ∧
        word.next.toNat = (s.own.next.toNat + 1) % (2 * depth) ∧ s.ready side depth := by
  have below := inv.next
  have signed : s.own.next.toInt = s.own.next.toNat := toInt_small (by omega)
  cases round : s.round side depth call with
  | leave code | spin | wait => exact ⟨s.own, .inl ⟨rfl, rfl⟩⟩
  | store word pointer code =>
    refine ⟨word, ?_⟩
    have moved := next_moved small below
    cases side with
    | push =>
      simp only [State.round, getPushPointer, ne_eq, not_true_eq_false, if_false] at round
      obtain ⟨_, ⟨rfl, same⟩ | ⟨rfl, place, free⟩⟩ := pointerRound_store round
      · exact .inl ⟨rfl, same⟩
      · rw [signed, wrapped_ahead below inv.other, decide_eq_true_eq] at free
        refine .inr ⟨by rw [signed]; rfl, by rw [place, moved], ?_⟩
        exact Int.ofNat_lt.mp free
    | pop =>
      simp only [State.round, getPopPointer, ne_eq, not_true_eq_false, if_false] at round
      obtain ⟨_, ⟨rfl, same⟩ | ⟨rfl, place, free⟩⟩ := pointerRound_store round
      · exact .inl ⟨rfl, same⟩
      · rw [signed, wrapped_ahead inv.other below, decide_eq_true_eq] at free
        refine .inr ⟨by rw [signed]; rfl, by rw [place, moved], ?_⟩
        exact Int.ofNat_lt.mp free

lemma Inv.kept (inv : Inv side depth s) {word : Word} {detached : Bool} (same : word.next = s.own.next) :
    Inv side depth { s with own := word, detached := detached } := by
  have outstanding : State.outstanding side depth { s with own := word, detached := detached } =
      s.outstanding side depth := by
    cases side <;> simp [State.outstanding, same]
  exact ⟨same ▸ inv.next, inv.other, outstanding ▸ inv.few, inv.inRange, inv.consecutive, same ▸ inv.latest⟩

lemma outstanding_moved {word : Word} {handed : List Int} (inv : Inv side depth s)
    (ready : s.ready side depth) (moved : word.next.toNat = (s.own.next.toNat + 1) % (2 * depth)) :
    State.outstanding side depth { s with own := word, handed := handed } ≤ depth := by
  have few := inv.few
  cases side with
  | push =>
    simp only [State.ready, State.outstanding, moved] at ready ⊢
    rw [Circular.ahead_lead inv.next inv.other (by omega)]
    exact ready
  | pop =>
    simp only [State.ready, State.outstanding, moved] at ready few ⊢
    rw [Circular.ahead_follow inv.other inv.next ready]
    omega

variable (positive : 0 < depth)

include positive

lemma Inv.handed {word : Word} (inv : Inv side depth s) (ready : s.ready side depth)
    (moved : word.next.toNat = (s.own.next.toNat + 1) % (2 * depth)) :
    Inv side depth { s with own := word, handed := (s.own.next.toNat : Int) :: s.handed } := by
  have below := inv.next
  refine ⟨?_, inv.other, outstanding_moved inv ready moved, ?_, ?_, ?_⟩
  · rw [moved]
    exact mod_lt _ (by omega)
  · intro pos member
    rcases List.mem_cons.mp member with rfl | earlier
    · exact ⟨by omega, by omega⟩
    · exact inv.inRange pos earlier
  · refine List.isChain_cons.mpr ⟨?_, inv.consecutive⟩
    exact inv.latest
  · intro pos member
    cases member
    rw [moved, mod_succ]

lemma Inv.advanced {count : Nat} (small : depth ≤ 0x4000) (inv : Inv side depth s)
    (may : s.mayAdvance side depth count) :
    Inv side depth { s with other := BitVec.ofNat 16 ((s.other.toNat + count) % (2 * depth)) } := by
  have inside : (s.other.toNat + count) % (2 * depth) < 2 * depth := mod_lt _ (by omega)
  have value : (BitVec.ofNat 16 ((s.other.toNat + count) % (2 * depth))).toNat =
      (s.other.toNat + count) % (2 * depth) := by
    rw [toNat_ofNat]
    exact mod_eq_of_lt (by omega)
  refine { inv with other := by dsimp only; rw [value]; exact inside, few := ?_ }
  have few := inv.few
  cases side with
  | push =>
    simp only [State.mayAdvance, State.outstanding, value] at may few ⊢
    rw [Circular.ahead_follow inv.next inv.other may]
    omega
  | pop =>
    simp only [State.mayAdvance, State.outstanding, value] at may few ⊢
    rw [Circular.ahead_lead inv.other inv.next (by omega)]
    exact may

lemma Inv.step (small : depth ≤ 0x4000) (inv : Inv side depth s) {action : Action}
    (move : LFQueue.step side depth s action = some next) : Inv side depth next := by
  cases action with
  | call call =>
    cases move
    obtain ⟨word, ⟨taken, same⟩ | ⟨taken, moved, ready⟩⟩ := round_spec small inv call
    · rw [taken]
      exact inv.kept same
    · rw [taken]
      exact inv.handed positive ready moved
  | advance count =>
    obtain ⟨may, rfl⟩ := Option.ite_some_none_eq_some.mp move
    exact inv.advanced positive small may
  | touch completed mask waiting detached =>
    cases move
    exact inv.kept rfl

lemma Inv.started (fresh : LFQueue.started s) : Inv side depth s := by
  obtain ⟨_, _, next, other, none⟩ := fresh
  refine ⟨by rw [next]; exact mul_pos two_pos positive,
    by rw [other]; exact mul_pos two_pos positive, ?_, ?_, ?_, ?_⟩
  · cases side <;> simp [State.outstanding, next, other, Circular.ahead]
  · simp [none]
  · simp [none]
  · simp [none]

omit positive in
lemma Inv.sound (inv : Inv side depth s) : Sound side depth s := by
  refine ⟨inv.inRange, inv.consecutive, fun pos member => ?_, inv.few⟩
  have range := inv.inRange pos member
  rw [slot]
  split_ifs <;> omega

lemma sound_of_small (small : depth ≤ 0x4000)
    (reach : (system side depth).Reachable s) : Sound side depth s :=
  (reach.invariant (P := Inv side depth) (fun _ => Inv.started positive)
    fun _ _ _ inv move => inv.step positive small move).sound

end Small

section Large

variable {depth n : Nat} {handed : List Int}

def asked : Call := ⟨0, false, false⟩

lemma pointerRound_asked {distance : Int -> Int} {ready : Int -> Bool} (word : Word)
    (free : ready (wrapped depth (distance word.next.toInt)) = true) :
    pointerRound depth distance ready false asked word =
      .store { word with next := if word.next.toInt + 1 ≥ depth * 2 then 0#16 else word.next + 1#16 }
        (some word.next.toInt) .ok := by
  simp [pointerRound, asked, free]

def emptyAt (n : Nat) (handed : List Int) : State :=
  ⟨⟨0, 0, 0, BitVec.ofNat 16 n⟩, BitVec.ofNat 16 n, false, handed⟩

def oneReady (side : Side) (n : Nat) (handed : List Int) : State :=
  match side with
  | .push => emptyAt n handed
  | .pop => { emptyAt n handed with other := BitVec.ofNat 16 (n + 1) }

lemma toNat_at {m : Nat} (inside : m ≤ 0x8001) : (BitVec.ofNat 16 m).toNat = m := by
  rw [toNat_ofNat]
  exact mod_eq_of_lt (by omega)

lemma toInt_at (inside : n ≤ 0x8000) :
    (BitVec.ofNat 16 n).toInt = if n < 0x8000 then (n : Int) else -0x8000 := by
  rw [toInt_eq_toNat_cond, toNat_at (by omega)]
  split_ifs <;> omega

lemma oneReady_round (side : Side) (large : 0x4000 < depth) (accepted : depth ≤ 0x7fff) (inside : n ≤ 0x8000) :
    (oneReady side n handed).round side depth asked = .store
      ⟨0, 0, 0, if (BitVec.ofNat 16 n).toInt + 1 ≥ depth * 2 then 0#16 else BitVec.ofNat 16 n + 1#16⟩
      (some (BitVec.ofNat 16 n).toInt) .ok := by
  have value := toInt_at inside
  cases side with
  | push =>
    simp only [State.round, getPushPointer, ne_eq, not_true_eq_false, if_false]
    refine pointerRound_asked _ ?_
    simp only [oneReady, emptyAt, value, toNat_at (show n ≤ 0x8001 by omega), wrapped, decide_eq_true_eq]
    split_ifs <;> omega
  | pop =>
    simp only [State.round, getPopPointer, ne_eq, not_true_eq_false, if_false]
    refine pointerRound_asked _ ?_
    simp only [oneReady, emptyAt, value, toNat_at (show n + 1 ≤ 0x8001 by omega), wrapped, decide_eq_true_eq]
    split_ifs <;> omega

lemma advance_one {side : Side} {s : State} (large : 0x4000 < depth) (other : s.other = BitVec.ofNat 16 n)
    (inside : n ≤ 0x8000) (may : s.mayAdvance side depth 1) :
    step side depth s (.advance 1) = some { s with other := BitVec.ofNat 16 (n + 1) } := by
  have place : (n + 1) % (2 * depth) = n + 1 := mod_eq_of_lt (by omega)
  rw [step, if_pos may, other, toNat_at (by omega), place]

section

variable (side : Side) (large : 0x4000 < depth)

include side large

lemma oneReady_reachable (inside : n ≤ 0x8000)
    (reach : (system side depth).Reachable (emptyAt n handed)) :
    (system side depth).Reachable (oneReady side n handed) := by
  cases side with
  | push => exact reach
  | pop =>
    refine reach.step (a := .advance 1) (advance_one large rfl inside ?_)
    rw [State.mayAdvance, State.outstanding, emptyAt, toNat_at (by omega), Circular.ahead_eq (by omega) (by omega)]
    split <;> omega

lemma emptyAt_reachable (accepted : depth ≤ 0x7fff)
    (inside : n ≤ 0x8000) : ∃ handed, (system side depth).Reachable (emptyAt n handed) := by
  induction n with
  | zero => exact ⟨[], .init ⟨rfl, rfl, rfl, rfl, rfl⟩⟩
  | succ n ih =>
    obtain ⟨handed, reach⟩ := ih (by omega)
    have ready := oneReady_reachable side large (by omega) reach
    have value : (BitVec.ofNat 16 n).toInt = n := (toInt_at (by omega)).trans (if_pos (by omega))
    have taken := ready.step (a := .call asked) rfl
    rw [oneReady_round side large accepted (by omega), value, if_neg (by omega), ofNat_add_ofNat] at taken
    cases side with
    | push =>
      refine ⟨_, taken.step (a := .advance 1) (advance_one large rfl (by omega) ?_)⟩
      simp only [State.mayAdvance, State.outstanding, State.take, oneReady, emptyAt]
      rw [toNat_at (by omega), toNat_at (by omega), Circular.ahead_eq (by omega) (by omega), if_pos (by omega)]
      omega
    | pop => exact ⟨_, taken⟩

-- The position 0x8000 is read back as a negative number.
lemma hands_negative (accepted : depth ≤ 0x7fff) :
    ∃ s, (system side depth).Reachable s ∧ -0x8000 ∈ s.handed := by
  obtain ⟨handed, reach⟩ := emptyAt_reachable side large accepted (le_refl 0x8000)
  have ready := oneReady_reachable side large le_rfl reach
  have taken := ready.step (a := .call asked) rfl
  rw [oneReady_round side large accepted le_rfl, toInt_at le_rfl] at taken
  exact ⟨_, taken, List.mem_cons_self⟩

end

end Large

theorem lfqueue_positions_iff (side : Side) (depth : Nat) (accepted : acceptsDepth depth = true) :
    (∀ s, (system side depth).Reachable s -> Sound side depth s) ↔ depth ≤ 0x4000 := by
  have range : 0 < depth ∧ depth ≤ 0x7fff := by
    simp [acceptsDepth] at accepted
    omega
  constructor
  · intro all
    by_contra large
    obtain ⟨s, reach, member⟩ := hands_negative side (by omega) range.2
    have low := ((all s reach).inRange _ member).1
    omega
  · intro small s reach
    exact sound_of_small range.1 small reach

theorem lfqueue_positions_half : acceptsDepth 0x4000 = true ∧
    ∀ s, (system .push 0x4000).Reachable s -> Sound .push 0x4000 s :=
  ⟨by decide, (lfqueue_positions_iff .push 0x4000 (by decide)).mpr le_rfl⟩

theorem lfqueue_negative : acceptsDepth 0x7fff = true ∧
    (∃ s, (system .push 0x7fff).Reachable s ∧ ∃ pos ∈ s.handed, pos < 0 ∧ slot 0x7fff pos < 0) ∧
    ∃ s, (system .pop 0x7fff).Reachable s ∧ ∃ pos ∈ s.handed, pos < 0 ∧ slot 0x7fff pos < 0 := by
  obtain ⟨pushed, pushReach, pushMember⟩ := hands_negative .push (show 0x4000 < 0x7fff by decide) le_rfl
  obtain ⟨popped, popReach, popMember⟩ := hands_negative .pop (show 0x4000 < 0x7fff by decide) le_rfl
  exact ⟨by decide, ⟨pushed, pushReach, _, pushMember, by decide, by decide⟩,
    popped, popReach, _, popMember, by decide, by decide⟩

end EmuCore.Cell.LFQueue
