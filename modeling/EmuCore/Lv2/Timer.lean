import Mathlib.Tactic

namespace EmuCore.Lv2

open List Nat

def umax : Nat := 2 ^ 64 - 1

def addSaturate (a b : Nat) : Nat := min (a + b) umax

-- `sent` are the times that were sent to the port.
structure Timer where
  running : Bool
  port : Bool
  expire : Nat
  period : Nat
  sent : List Nat

inductive TimerError
  | einval
  | enotconn
  | ebusy
  | etimedout

namespace Timer

def send (t : Timer) : Timer := if t.port then { t with sent := t.sent ++ [t.expire] } else t

def checkUnlocked (now : Nat) (t : Timer) : Timer × Nat :=
  if now < t.expire ∨ t.running = false then (t, umax)
  else if t.period ≠ 0 then
    let expire0 := addSaturate t.expire t.period
    ({ t.send with expire := expire0 }, expire0 - now)
  else ({ t.send with running := false }, umax)

def check (now : Nat) (t : Timer) : Timer × Nat :=
  if t.running then
    if t.expire ≤ now then t.checkUnlocked now else (t, t.expire - now)
  else (t, umax)

variable (startTime baseTime period : Nat)

def firstExpire : Nat :=
  if period = 0 then baseTime
  else if baseTime = 0 then addSaturate startTime period
  else if startTime < addSaturate baseTime period then addSaturate baseTime period
  else
    let aligned := addSaturate (startTime - startTime % period) (baseTime % period)
    addSaturate aligned (if aligned < startTime then period else 0)

def start (t : Timer) : Timer × Option TimerError :=
  if period ≠ 0 ∧ period < 100 then (t, some .einval)
  else if t.port = false then (t, some .enotconn)
  else
    let t := (t.checkUnlocked startTime).1
    if t.running then (t, some .ebusy)
    else if period = 0 ∧ baseTime ≤ startTime then (t, some .etimedout)
    else ({ t with running := true, expire := firstExpire startTime baseTime period, period }, none)

-- do { base_time += period; } while (base_time < start_time);
def lv2Loop (startTime period : Nat) : Nat -> Nat -> Option Nat
  | 0, _ => none
  | fuel + 1, baseTime =>
    if baseTime + period < startTime then lv2Loop startTime period fuel (baseTime + period)
    else some (baseTime + period)

-- Checks until there is time to sleep.
def drive (now : Nat) : Nat -> Timer -> Option (Timer × Nat)
  | 0, _ => none
  | fuel + 1, t => if 0 < (t.check now).2 then some (t.check now) else drive now fuel (t.check now).1

end Timer

open Timer

lemma addSaturate_eq {a b : Nat} (fits : a + b < 2 ^ 64) : addSaturate a b = a + b :=
  min_eq_left (le_sub_one_of_lt fits)

lemma lv2Loop_eq {startTime period baseTime k : Nat} (before : baseTime + k * period < startTime)
    (reached : startTime ≤ baseTime + k * period + period) :
    lv2Loop startTime period (k + 1) baseTime = some (baseTime + k * period + period) := by
  induction k generalizing baseTime with
  | zero => rw [lv2Loop, if_neg (by omega), zero_mul, add_zero]
  | succ k ih =>
    have sum : baseTime + (k + 1) * period = baseTime + period + k * period := by ring
    rw [sum] at before reached ⊢
    rw [lv2Loop, if_pos (by omega), ih before reached]

lemma firstExpire_eq {startTime baseTime period : Nat} (positive : 0 < period) (based : baseTime ≠ 0)
    (late : baseTime + period ≤ startTime) :
    ∃ k, baseTime + k * period < startTime ∧ startTime ≤ baseTime + k * period + period ∧
      (baseTime + k * period + period < 2 ^ 64 ->
        firstExpire startTime baseTime period = baseTime + k * period + period) := by
  have base := div_add_mod baseTime period
  have start := div_add_mod startTime period
  have small := mod_lt startTime positive
  have smallBase := mod_lt baseTime positive
  obtain ⟨d, quotients⟩ : ∃ d, startTime / period = baseTime / period + 1 + d :=
    Nat.exists_eq_add_of_le ((Nat.le_div_iff_mul_le positive).mpr (by rw [Nat.succ_mul, mul_comm]; omega))
  rw [quotients, mul_add, mul_add, mul_one] at start
  have reached : ¬startTime < addSaturate baseTime period := by
    unfold addSaturate
    omega
  rw [firstExpire, if_neg positive.ne', if_neg based, if_neg reached]
  dsimp only
  refine ⟨d + if baseTime % period < startTime % period then 1 else 0, ?_⟩
  split
  next =>
    rw [succ_mul, mul_comm d]
    refine ⟨by omega, by omega, fun fits => ?_⟩
    rw [addSaturate_eq (a := startTime - startTime % period) (by omega), if_pos (by omega), addSaturate_eq (by omega)]
    omega
  next =>
    rw [add_zero, mul_comm d]
    refine ⟨by omega, by omega, fun fits => ?_⟩
    rw [addSaturate_eq (a := startTime - startTime % period) (by omega), if_neg (by omega), addSaturate_eq (by omega)]
    omega

variable {now n expire period : Nat} {sent : List Nat}

lemma check_due (periodic : period ≠ 0) (due : expire ≤ now) (fits : expire + period < 2 ^ 64) :
    check now ⟨true, true, expire, period, sent⟩ =
      (⟨true, true, expire + period, period, sent ++ [expire]⟩, expire + period - now) := by
  simp [check, checkUnlocked, send, periodic, due, addSaturate_eq fits]

lemma drive_sends (periodic : period ≠ 0) (due : ∀ i, expire + i * period ≤ now ↔ i < n)
    (fits : expire + n * period < 2 ^ 64) : drive now (n + 1) ⟨true, true, expire, period, sent⟩ =
      some (⟨true, true, expire + n * period, period, sent ++ (range n).map (expire + · * period)⟩,
        expire + n * period - now) := by
  induction n generalizing expire sent with
  | zero =>
    have later : now < expire := by simpa using due 0
    simp [drive, check, later, not_le.mpr later]
  | succ n ih =>
    have shift (i : Nat) : expire + (i + 1) * period = expire + period + i * period := by ring
    have first := (due 0).mpr (succ_pos n)
    have rest := @ih (expire + period) (sent ++ [expire])
      (fun i => by rw [← shift, due, add_lt_add_iff_right]) (by rwa [← shift])
    rw [drive, check_due periodic (by omega) (by rw [shift] at fits; omega), range_succ_eq_map, map_cons,
      map_map, shift]
    simp only [Function.comp_def, shift, zero_mul, add_zero]
    split
    next sleeps =>
      have alone := due 1
      obtain rfl : n = 0 := by omega
      simp
    next => rw [rest, append_assoc, singleton_append]

theorem timer_matches_loop (startTime baseTime period : Nat) (long : 100 ≤ period) (based : baseTime ≠ 0)
    (late : baseTime + period ≤ startTime) :
    (∃ fuel last, lv2Loop startTime period fuel baseTime = some last ∧ (last < 2 ^ 64 -> ∀ expire old sent,
      start startTime baseTime period ⟨false, true, expire, old, sent⟩ =
        (⟨true, true, last, period, sent⟩, none))) ∧
    ∀ now expire sent, ∃ n, (∀ i, expire + i * period ≤ now ↔ i < n) ∧ (expire + n * period < 2 ^ 64 ->
      ∃ fuel, drive now fuel ⟨true, true, expire, period, sent⟩ =
        some (⟨true, true, expire + n * period, period, sent ++ (range n).map (expire + · * period)⟩,
          expire + n * period - now)) := by
  constructor
  · obtain ⟨k, before, reached, first⟩ := firstExpire_eq (by omega) based late
    refine ⟨k + 1, _, lv2Loop_eq before reached, fun fits expire old sent => ?_⟩
    simp [start, checkUnlocked, first fits, not_lt.mpr long]
    omega
  intro now expire sent
  have periodic : period ≠ 0 := by omega
  by_cases due : expire ≤ now
  · have count (i : Nat) : expire + i * period ≤ now ↔ i < (now - expire) / period + 1 := by
      rw [Nat.lt_succ_iff, Nat.le_div_iff_mul_le (by omega)]
      omega
    exact ⟨_, count, fun fits => ⟨_, drive_sends periodic count fits⟩⟩
  · have none (i : Nat) : expire + i * period ≤ now ↔ i < 0 := by omega
    exact ⟨0, none, fun fits => ⟨_, drive_sends periodic none fits⟩⟩

theorem timer_matches_loop_late : 150 + 200 ≤ 1000 ∧ ∃ fuel last, lv2Loop 1000 200 fuel 150 = some last := by
  obtain ⟨fuel, last, loops, _⟩ := (timer_matches_loop 1000 150 200 (by decide) (by decide) (by decide)).1
  exact ⟨by decide, fuel, last, loops⟩

end EmuCore.Lv2
