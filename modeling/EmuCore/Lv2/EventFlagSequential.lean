import EmuCore.Lv2.EventFlag

namespace EmuCore.Lv2.EventFlag

open List

-- Whether an older waiter stays ahead of a newer one.
def ahead (protocol : Protocol) (older newer : Waiter) : Bool :=
  decide (protocol ≠ .priority ∨ older.prio ≤ newer.prio)

def place (protocol : Protocol) (w : Waiter) : List Waiter -> List Waiter
  | [] => [w]
  | v :: rest => if ahead protocol v w then v :: place protocol w rest else w :: v :: rest

/-- The order the protocol prescribes: by priority and then oldest first, or oldest first. The
queue is listed from its newest waiter. -/
def protocolOrder (protocol : Protocol) : List Waiter -> List Waiter
  | [] => []
  | w :: older => place protocol w (protocolOrder protocol older)

variable {protocol : Protocol}

lemma place_perm (w : Waiter) (list : List Waiter) : (place protocol w list).Perm (w :: list) := by
  induction list with
  | nil => exact .refl _
  | cons v rest ih =>
    unfold place
    split
    · exact (ih.cons v).trans (List.Perm.swap w v rest)
    · exact .refl _

lemma protocolOrder_perm (protocol : Protocol) (sq : List Waiter) :
    (protocolOrder protocol sq).Perm sq := by
  induction sq with
  | nil => exact .refl _
  | cons w older ih => exact (place_perm w _).trans (ih.cons w)

def first (protocol : Protocol) : List Waiter -> Option Waiter
  | [] => none
  | w :: older =>
    match first protocol older with
    | none => some w
    | some v => if ahead protocol v w then some v else some w

variable {sq : List Waiter}

lemma first_eq_none : first protocol sq = none ↔ sq = [] := by
  fun_cases first protocol sq <;> simp

lemma first_mem {w : Waiter} : first protocol sq = some w -> w ∈ sq := by
  fun_induction first protocol sq with
  | case1 => rintro ⟨⟩
  | case3 v older u picked ahead ih =>
    rintro ⟨⟩
    exact mem_cons_of_mem v (ih picked)
  | _ =>
    rintro ⟨⟩
    exact mem_cons_self

lemma protocolOrder_cons {w : Waiter} (nodup : sq.Nodup) :
    first protocol sq = some w -> protocolOrder protocol sq = w :: protocolOrder protocol (sq.erase w) := by
  fun_induction first protocol sq generalizing w with
  | case1 => rintro ⟨⟩
  | case2 v older none ih =>
    rintro ⟨⟩
    simp [first_eq_none.mp none, protocolOrder, place]
  | case3 v older u picked stays ih =>
    rintro ⟨⟩
    obtain ⟨outside, nodup⟩ := nodup_cons.mp nodup
    have other : v ≠ u := fun same => outside (same ▸ first_mem picked)
    rw [erase_cons_tail (by simpa using other)]
    simp only [protocolOrder, ih nodup picked, place, stays, if_true]
  | case4 v older u picked passed ih =>
    rintro ⟨⟩
    rw [erase_cons_head]
    simp only [protocolOrder, ih (nodup_cons.mp nodup).2 picked, place, passed, Bool.false_eq_true, if_false]

def unmarked (gpr7 : ThreadId -> Bool) (sq : List Waiter) : List Waiter :=
  sq.filter fun w => !gpr7 w.thread

lemma getNextScan_eq (gpr7 : ThreadId -> Bool) (it : Option Waiter) (prio : Int)
    (sq : List Waiter) :
    getNextScan protocol gpr7 it prio sq =
      match first protocol (unmarked gpr7 sq) with
      | none => it
      | some v => if protocol ≠ .priority ∨ v.prio ≤ prio then some v else it := by
  -- The accumulator holds the best waiter so far; later ones are older and win ties.
  induction sq generalizing it prio with
  | nil => rfl
  | cons ppu rest ih =>
    cases mark : gpr7 ppu.thread with
    | true =>
      simp only [getNextScan, mark, Bool.true_eq_false, false_and, if_false, ih]
      simp [unmarked, mark]
    | false =>
      have whole : unmarked gpr7 (ppu :: rest) = ppu :: unmarked gpr7 rest := by
        simp [unmarked, mark]
      simp only [getNextScan, mark, true_and, ih, whole, first, ahead, decide_eq_true_eq]
      cases first protocol (unmarked gpr7 rest) with
      | none => rfl
      | some v =>
        by_cases priority : protocol = .priority
        · by_cases better : ppu.prio ≤ prio <;> by_cases older : v.prio ≤ ppu.prio <;>
            by_cases best : v.prio ≤ prio <;> simp [priority, better, older, best]
          all_goals omega
        · simp [priority]

lemma getNext_eq (gpr7 : ThreadId -> Bool) (sq : List Waiter) :
    getNext protocol gpr7 sq = first protocol (unmarked gpr7 sq) := by
  unfold getNext
  rw [getNextScan_eq]
  split
  next none => exact none.symm
  next v found => rw [if_pos (.inr v.prio_le), found]

lemma unmarked_mark (gpr7 : ThreadId -> Bool) {w : Waiter} (distinct : (sq.map Waiter.thread).Nodup)
    (member : w ∈ sq) :
    unmarked (Function.update gpr7 w.thread true) sq = (unmarked gpr7 sq).erase w := by
  have nodup : (unmarked gpr7 sq).Nodup := distinct.of_map.filter _
  rw [nodup.erase_eq_filter, unmarked, unmarked, filter_filter]
  refine filter_congr fun v other => ?_
  have same : v.thread = w.thread ↔ v = w :=
    ⟨fun same => inj_on_of_nodup_map distinct other member same, fun same => by rw [same]⟩
  by_cases here : v = w
  · simp [here]
  · simp [here, mt same.mp here]

def passOver (bitptn : Pattern) : List Waiter -> Pass -> Pass
  | [], p => p
  | it :: rest, p =>
    let p := p.mark it
    match checkPattern p.toWrite it.bitptn it.mode with
    | some toWrite =>
      let p := p.accept bitptn it toWrite
      if toWrite = 0 then p else passOver bitptn rest p
    | none => passOver bitptn rest (p.refuse it)

lemma passLoop_eq (distinct : (sq.map Waiter.thread).Nodup) (bitptn : Pattern) (fuel : Nat) (p : Pass)
    (enough : (unmarked p.regs.gpr7 sq).length ≤ fuel) :
    passLoop protocol sq bitptn fuel p =
      passOver bitptn (protocolOrder protocol (unmarked p.regs.gpr7 sq)) p := by
  induction fuel generalizing p with
  | zero =>
    have empty := eq_nil_of_length_eq_zero (Nat.le_zero.mp enough)
    simp [passLoop, empty, protocolOrder, passOver]
  | succ fuel ih =>
    have nodup : (unmarked p.regs.gpr7 sq).Nodup := distinct.of_map.filter _
    unfold passLoop
    rw [getNext_eq]
    split
    next none =>
      simp [first_eq_none.mp none, protocolOrder, passOver]
    next it found =>
      have among := first_mem found
      have member : it ∈ sq := mem_of_mem_filter among
      have left := unmarked_mark p.regs.gpr7 distinct member
      have shorter := length_erase_of_mem among
      rw [protocolOrder_cons nodup found]
      cases checked : checkPattern (p.mark it).toWrite it.bitptn it.mode with
      | some toWrite =>
        have rest := ih ((p.mark it).accept bitptn it toWrite)
          (by simp only [Pass.accept, Pass.mark, left]; omega)
        simp only [Pass.accept, Pass.mark, left] at rest checked ⊢
        simp only [passOver, Pass.accept, Pass.mark, checked, rest]
      | none =>
        have rest := ih ((p.mark it).refuse it) (by simp only [Pass.refuse, Pass.mark, left]; omega)
        simp only [Pass.refuse, Pass.mark, left] at rest checked ⊢
        simp only [passOver, Pass.refuse, Pass.mark, checked, rest]

lemma pass_eq (distinct : (sq.map Waiter.thread).Nodup) (bitptn pattern : Pattern) (regs : Regs) :
    pass protocol sq bitptn pattern regs = passOver bitptn (protocolOrder protocol sq)
      { toWrite := pattern ||| bitptn
        dependantMask := 0
        count := 0
        regs := { regs with gpr7 := fun _ => false } } := by
  have all : unmarked (fun _ => false) sq = sq := by simp [unmarked]
  unfold pass
  rw [passLoop_eq distinct]
  · simp only [all]
  · simp only [all]
    omega

open BitVec

def Below (x pattern : Pattern) : Prop := ∀ i, x.getLsbD i = true -> pattern.getLsbD i = true

lemma Below.refl (x : Pattern) : Below x x := fun _ => id

lemma Below.trans {x y z : Pattern} (xy : Below x y) (yz : Below y z) : Below x z :=
  fun i set => yz i (xy i set)

lemma and_eq_right {x w : Pattern} : x &&& w = w ↔ Below w x := by
  constructor
  · intro same i set
    rw [← same, getLsbD_and, Bool.and_eq_true] at set
    exact set.1
  intro below
  refine eq_of_getLsbD_eq fun i _ => ?_
  rw [getLsbD_and]
  cases set : w.getLsbD i with
  | false => simp
  | true => simp [below i set]

lemma and_eq_zero {x w : Pattern} :
    x &&& w = 0 ↔ ∀ i, w.getLsbD i = true -> x.getLsbD i = false := by
  constructor
  · intro zero i set
    have bit := congrArg (fun v => v.getLsbD i) zero
    simpa [set] using bit
  intro apart
  refine eq_of_getLsbD_eq fun i _ => ?_
  rw [getLsbD_and]
  cases set : w.getLsbD i with
  | false => simp
  | true => simp [apart i set]

lemma and_below_left (x y : Pattern) : Below (x &&& y) x := by
  intro i set
  rw [getLsbD_and, Bool.and_eq_true] at set
  exact set.1

lemma checkClears_below (pattern bitptn : Pattern) (mode : Mode) :
    Below (checkClears pattern bitptn mode) pattern := by
  unfold checkClears
  split
  · exact Below.refl pattern
  · exact and_below_left pattern _
  · intro i set
    simp at set

lemma checkPattern_below {pattern bitptn next : Pattern} {mode : Mode}
    (passed : checkPattern pattern bitptn mode = some next) : Below next pattern := by
  unfold checkPattern at passed
  split at passed
  · cases passed
  · exact Option.some.inj passed ▸ checkClears_below pattern bitptn mode

lemma apply_below (pattern : Pattern) (update : LockFree) : Below (update.apply pattern) pattern := by
  cases update with
  | wait bitptn mode =>
    cases passed : checkPattern pattern bitptn mode with
    | none => simpa [LockFree.apply, passed] using Below.refl pattern
    | some next => simpa [LockFree.apply, passed] using checkPattern_below passed
  | clear bitptn => exact and_below_left pattern bitptn

lemma foldl_below (updates : List LockFree) (pattern : Pattern) :
    Below (updates.foldl LockFree.apply pattern) pattern := by
  induction updates generalizing pattern with
  | nil => exact Below.refl pattern
  | cons update rest ih => exact (ih (update.apply pattern)).trans (apply_below pattern update)

lemma Waiter.refuses_mono {w : Waiter} {x pattern : Pattern} (below : Below x pattern)
    (refused : w.refuses pattern = true) : w.refuses x = true := by
  unfold Waiter.refuses checkRefuses at *
  split at refused
  · rw [bne_iff_ne, ne_eq, and_eq_right] at *
    exact fun covers => refused (covers.trans below)
  rw [beq_iff_eq, and_eq_zero] at *
  intro i set
  cases bit : x.getLsbD i with
  | false => rfl
  | true => exact absurd (below i bit) (by simp [refused i set])

structure Verdicts where
  accepted : List Waiter
  refused : List Waiter
  unreached : List Waiter
  pattern : Pattern

/-- Apply `check_pattern` to the waiters one after the other until the pattern becomes 0. -/
def sequential : List Waiter -> Pattern -> Verdicts
  | [], v => ⟨[], [], [], v⟩
  | w :: rest, v =>
    match checkPattern v w.bitptn w.mode with
    | some next =>
      if next = 0 then ⟨[w], [], rest, next⟩
      else
        let later := sequential rest next
        { later with accepted := w :: later.accepted }
    | none =>
      let later := sequential rest v
      { later with refused := w :: later.refused }

lemma checkPattern_none {w : Waiter} {v : Pattern} :
    checkPattern v w.bitptn w.mode = none ↔ w.refuses v = true := by
  unfold checkPattern Waiter.refuses
  split
  next refused => simp [refused]
  next passed => simpa using passed

lemma sequential_refused {list : List Waiter} {v : Pattern}
    (refused : ∀ w ∈ list, w.refuses v = true) : sequential list v = ⟨[], list, [], v⟩ := by
  induction list with
  | nil => rfl
  | cons w rest ih =>
    have none := checkPattern_none.mpr (refused w mem_cons_self)
    have later := ih fun u member => refused u (mem_cons_of_mem w member)
    simp only [sequential, none, later]

lemma sequential_below (list : List Waiter) (v : Pattern) : Below (sequential list v).pattern v := by
  fun_induction sequential list v with
  | case1 v => exact Below.refl v
  | case2 w rest v passed => exact checkPattern_below passed
  | case3 w rest v next passed _ later ih => exact ih.trans (checkPattern_below passed)
  | case4 w rest v refused later ih => exact ih

lemma sequential_perm (list : List Waiter) (v : Pattern) :
    list.Perm ((sequential list v).accepted ++ (sequential list v).refused ++
      (sequential list v).unreached) := by
  fun_induction sequential list v with
  | case1 | case2 => exact .refl _
  | case3 w rest v next passed _ later ih => exact ih.cons w
  | case4 w rest v refused later ih =>
    have whole := ih.cons w
    simp only [List.append_assoc, List.cons_append] at whole ⊢
    exact whole.trans perm_middle.symm

lemma sequential_unreached {list : List Waiter} {v : Pattern} : (sequential list v).unreached ≠ [] ->
    (sequential list v).accepted ≠ [] ∧ (sequential list v).pattern = 0 := by
  fun_induction sequential list v with
  | case1 v => exact fun some => absurd rfl some
  | case2 w rest v => simp
  | case3 w rest v next passed _ later ih => exact fun some => ⟨cons_ne_nil _ _, (ih some).2⟩
  | case4 w rest v refused later ih => exact ih

end EmuCore.Lv2.EventFlag
