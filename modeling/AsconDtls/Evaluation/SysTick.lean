import Mathlib.Data.BitVec
import AsconDtls.Lib.Run

/-!
# The SysTick benchmark clock

`bench_current_time` of the Renode driver counts the wraps of a 24-bit down counter by
`COUNTFLAG` and adds the distance from `s_start`.  The flag is set where the counter passes zero;
the distance starts again where it passes `s_start`.  A time is in ticks, the division by the
clock rate is left out, and no tick comes in the middle of a call.

* `iterate_tick`: the registers after some ticks.
* `run_readings`: what the reads of a paced schedule return.
* `measures_iff`: when this is the time since the reset.
* `not_measures`: a read a period ahead.
-/

namespace AsconDtls.Evaluation

open Run (run run_cons run_nil)

/-! ### The timer -/

def CTRL_COUNTFLAG : BitVec 32 := 1#32 <<< 16
/-- ENABLE and CLKSOURCE. -/
def CTRL_ENABLE_CLK : BitVec 32 := 0x5

/-- `SYST_CVR` and bit 16 of `SYST_CSR`, of the timer that runs with
`SYST_RVR = 0x00FFFFFF`. -/
structure SysTick where
  cvr : BitVec 24
  countflag : Bool
deriving DecidableEq

namespace SysTick

/-- `main` and `hal_systick_enable`: writing `SYST_CVR` clears the counter and the flag. -/
def setup : SysTick := ⟨0, false⟩

def tick (s : SysTick) : SysTick :=
  { cvr := if s.cvr = 0 then 0xFFFFFF else s.cvr - 1
    countflag := s.countflag || s.cvr == 1 }

/-- The value that a read of `SYST_CSR` returns. -/
def csr (s : SysTick) : BitVec 32 :=
  (if s.countflag then CTRL_COUNTFLAG else 0) ||| CTRL_ENABLE_CLK

/-- A read of `SYST_CSR` clears the flag. -/
def clearFlag (s : SysTick) : SysTick := { s with countflag := false }

/-- How often the counter passes from 1 to 0 within `n` ticks. -/
def crossings (s : SysTick) : Nat → Nat
  | 0 => 0
  | n + 1 => crossings s n + if (tick^[n] s).cvr = 1 then 1 else 0

end SysTick

/-! ### The clock -/

/-- The timer and the static variables `s_wraps` and `s_start`. -/
structure Bench where
  systick : SysTick
  wraps : BitVec 32
  start : BitVec 32
deriving DecidableEq

/-- `hal_elapsed`. -/
def halElapsed (s e : BitVec 32) : BitVec 32 := (s - e) &&& 0x00FFFFFF

/-- `bench_current_time`.  The reads of `SYST_CSR` and `SYST_CVR` in one call see the same instant, and
the result is the integer that the source converts to a `double` and divides by the clock rate. -/
def benchCurrentTime (reset : Bool) (b : Bench) : Bench × Nat :=
  if reset then
    ({ b with wraps := 0, start := b.systick.cvr.setWidth 32 }, 0)
  else
    let wraps := if b.systick.csr &&& CTRL_COUNTFLAG ≠ 0 then b.wraps + 1 else b.wraps
    let b := { b with systick := b.systick.clearFlag, wraps := wraps }
    let elapsed := (b.start - b.systick.cvr.setWidth 32) &&& 0x00FFFFFF
    (b, b.wraps.toNat * 0x1000000 + elapsed.toNat)

/-- Some ticks, then `bench_current_time(0)`. -/
def poll (b : Bench) (gap : Nat) : Bench × Nat :=
  benchCurrentTime false { b with systick := SysTick.tick^[gap] b.systick }

/-- `bench_current_time(1)`, then a read after each gap. -/
def readings (b : Bench) (gaps : List Nat) : List Nat :=
  (run poll (benchCurrentTime true b).1 gaps).2

/-- The times of these reads, from `t` on. -/
def times (t : Nat) : List Nat → List Nat
  | [] => []
  | gap :: gaps => (t + gap) :: times (t + gap) gaps

/-- At most one crossing in each gap. -/
def Paced (s : SysTick) : List Nat → Prop
  | [] => True
  | gap :: gaps => s.crossings gap ≤ 1 ∧ Paced (SysTick.tick^[gap] s) gaps

/-- Every read returns the ticks since the reset. -/
def Measures (b : Bench) (gaps : List Nat) : Prop := readings b gaps = times 0 gaps

/-! ### The timer after some ticks -/

namespace SysTick

theorem tick_cvr (s : SysTick) : (tick s).cvr = s.cvr - 1 := by
  show (if s.cvr = 0 then 0xFFFFFF else s.cvr - 1) = s.cvr - 1
  split
  · next h =>
      rw [h]
      rfl
  · rfl

theorem iterate_cvr (s : SysTick) (n : Nat) : (tick^[n] s).cvr = s.cvr - BitVec.ofNat 24 n := by
  induction n with
  | zero => exact (BitVec.sub_zero _).symm
  | succ n ih =>
      rw [Function.iterate_succ_apply', tick_cvr, ih, BitVec.ofNat_add]
      bv_omega

theorem iterate_cvr_toNat (s : SysTick) (n : Nat) :
    (tick^[n] s).cvr.toNat = (s.cvr.toNat + (2 ^ 24 - n % 2 ^ 24)) % 2 ^ 24 := by
  rw [iterate_cvr, BitVec.toNat_sub, BitVec.toNat_ofNat]
  omega

theorem crossings_eq (s : SysTick) (n : Nat) :
    s.crossings n = (n + (2 ^ 24 - s.cvr.toNat) % 2 ^ 24) / 2 ^ 24 := by
  have hcvr := s.cvr.isLt
  induction n with
  | zero =>
      rw [crossings]
      omega
  | succ n ih =>
      have hone : (tick^[n] s).cvr = 1 ↔ (tick^[n] s).cvr.toNat = 1 := by
        rw [← BitVec.toNat_inj]
        rfl
      rw [crossings, ih]
      simp only [hone, iterate_cvr_toNat]
      split <;> omega

/-- The flag is set by the first crossing and stays. -/
theorem iterate_countflag (s : SysTick) (n : Nat) :
    (tick^[n] s).countflag = (s.countflag || decide (0 < s.crossings n)) := by
  induction n with
  | zero => simp [crossings]
  | succ n ih =>
      rw [Function.iterate_succ_apply', crossings]
      show ((tick^[n] s).countflag || (tick^[n] s).cvr == 1) = _
      rw [ih]
      by_cases h : (tick^[n] s).cvr = 1
      · simp [h]
      · rw [if_neg h, beq_eq_false_iff_ne.mpr h, Bool.or_false, Nat.add_zero]

theorem csr_countflag (s : SysTick) : s.csr &&& CTRL_COUNTFLAG ≠ 0 ↔ s.countflag = true := by
  cases h : s.countflag with
  | false => simp only [csr, h]; decide
  | true => simp only [csr, h]; decide

/-- The driver can be reset at every counter value with the flag set or clear. -/
theorem setup_reaches (s : SysTick) : ∃ n, tick^[n] setup = s := by
  have hcvr := s.cvr.isLt
  have hstate : ∀ n, (n + s.cvr.toNat) % 2 ^ 24 = 0 →
      s.countflag = decide (0 < n / 2 ^ 24) → tick^[n] setup = s := by
    intro n hn hflag
    have h1 : (tick^[n] setup).cvr = s.cvr := by
      apply BitVec.eq_of_toNat_eq
      rw [iterate_cvr_toNat]
      show (0 + _) % _ = _
      omega
    have h2 : (tick^[n] setup).countflag = s.countflag := by
      rw [iterate_countflag, crossings_eq, hflag]
      rfl
    cases hs : tick^[n] setup with
    | mk c f =>
        rw [hs] at h1 h2
        subst h1 h2
        rfl
  cases hflag : s.countflag with
  | false =>
      refine ⟨(2 ^ 24 - s.cvr.toNat) % 2 ^ 24, hstate _ (by omega) ?_⟩
      rw [hflag, Nat.div_eq_of_lt (by omega)]
      rfl
  | true =>
      refine ⟨(2 ^ 24 - s.cvr.toNat) % 2 ^ 24 + 2 ^ 24, hstate _ (by omega) ?_⟩
      rw [hflag, eq_comm, decide_eq_true_iff]
      omega

theorem crossings_add (s : SysTick) (m n : Nat) :
    s.crossings (m + n) = s.crossings m + (tick^[m] s).crossings n := by
  induction n with
  | zero => rfl
  | succ n ih =>
      show s.crossings (m + n) + (if (tick^[m + n] s).cvr = 1 then 1 else 0) = _
      rw [ih, crossings, Nat.add_assoc, Nat.add_comm m n, Function.iterate_add_apply]

end SysTick

open SysTick

/-! ### One read -/

theorem halElapsed_toNat (s : SysTick) (t : Nat) :
    (halElapsed (s.cvr.setWidth 32) ((tick^[t] s).cvr.setWidth 32)).toNat = t % 2 ^ 24 := by
  have hcvr := s.cvr.isLt
  have hnow := (tick^[t] s).cvr.isLt
  have hmask : (0x00FFFFFF : BitVec 32).toNat = 2 ^ 24 - 1 := rfl
  rw [halElapsed, BitVec.toNat_and, hmask, Nat.and_two_pow_sub_one_eq_mod, BitVec.toNat_sub,
    BitVec.toNat_setWidth_of_le (by decide), BitVec.toNat_setWidth_of_le (by decide),
    iterate_cvr_toNat]
  omega

/-- The clock `t` ticks after a reset with the registers `s`, when it has counted `w` wraps. -/
structure Synced (s : SysTick) (t w : Nat) (flag : Bool) (b : Bench) : Prop where
  start : b.start = s.cvr.setWidth 32
  cvr : b.systick.cvr = (tick^[t] s).cvr
  countflag : b.systick.countflag = flag
  wraps : b.wraps = BitVec.ofNat 32 w

theorem synced_reset (b : Bench) :
    Synced b.systick 0 0 b.systick.countflag (benchCurrentTime true b).1 := ⟨rfl, rfl, rfl, rfl⟩

theorem poll_synced {s : SysTick} {t w : Nat} {flag : Bool} {b : Bench}
    (h : Synced s t w flag b) (gap : Nat) :
    let w' := w + if flag || decide (0 < (tick^[t] s).crossings gap) then 1 else 0
    Synced s (t + gap) w' false (poll b gap).1 ∧
      (poll b gap).2 = w' % 2 ^ 32 * 2 ^ 24 + (t + gap) % 2 ^ 24 := by
  intro w'
  have hcvr : (tick^[gap] b.systick).cvr = (tick^[t + gap] s).cvr := by
    rw [iterate_cvr, h.cvr, ← iterate_cvr, ← Function.iterate_add_apply, Nat.add_comm]
  have hflag : (tick^[gap] b.systick).csr &&& CTRL_COUNTFLAG ≠ 0 ↔
      (flag || decide (0 < (tick^[t] s).crossings gap)) = true := by
    rw [csr_countflag, iterate_countflag, h.countflag, crossings_eq, crossings_eq, h.cvr]
  have hwraps : (poll b gap).1.wraps = BitVec.ofNat 32 w' := by
    show (if (tick^[gap] b.systick).csr &&& CTRL_COUNTFLAG ≠ 0 then b.wraps + 1 else b.wraps) = _
    rw [if_congr hflag rfl rfl, h.wraps]
    show _ = BitVec.ofNat 32 (w + if _ then 1 else 0)
    split
    · exact (BitVec.ofNat_add _ _).symm
    · rfl
  refine ⟨⟨h.start, hcvr, rfl, hwraps⟩, ?_⟩
  show (poll b gap).1.wraps.toNat * 0x1000000 +
    (halElapsed b.start ((tick^[gap] b.systick).cvr.setWidth 32)).toNat = _
  rw [hwraps, h.start, hcvr, halElapsed_toNat, BitVec.toNat_ofNat]
  rfl

/-! ### Runs -/

/-- What a read returns `t` ticks after the reset, when `extra` wraps were counted that were no
crossings. -/
def reading (s : SysTick) (extra t : Nat) : Nat :=
  (s.crossings t + extra) % 2 ^ 32 * 2 ^ 24 + t % 2 ^ 24

/-- With the flag clear, a paced run counts each crossing once. -/
theorem run_synced {s : SysTick} {t extra : Nat} {b : Bench} {gaps : List Nat}
    (h : Synced s t (s.crossings t + extra) false b) (hpaced : Paced (tick^[t] s) gaps) :
    (run poll b gaps).2 = (times t gaps).map (reading s extra) := by
  induction gaps generalizing t b with
  | nil => rfl
  | cons gap gaps ih =>
      obtain ⟨hgap, hrest⟩ := hpaced
      obtain ⟨hnext, hvalue⟩ := poll_synced h gap
      have hcount : s.crossings t + extra +
          (if (false || decide (0 < (tick^[t] s).crossings gap)) = true then 1 else 0) =
          s.crossings (t + gap) + extra := by
        rw [crossings_add]
        simp only [Bool.false_or, decide_eq_true_eq]
        split <;> omega
      rw [hcount] at hnext hvalue
      rw [← Function.iterate_add_apply, Nat.add_comm] at hrest
      rw [run_cons, times, List.map_cons, ih hnext hrest, hvalue, reading]

/-- The flag at the reset counts as a wrap unless the first gap has a crossing. -/
def staleWrap (s : SysTick) : List Nat → Nat
  | [] => 0
  | gap :: _ => if s.countflag = true ∧ s.crossings gap = 0 then 1 else 0

theorem run_readings (b : Bench) {gaps : List Nat} (hpaced : Paced b.systick gaps) :
    readings b gaps = (times 0 gaps).map (reading b.systick (staleWrap b.systick gaps)) := by
  cases gaps with
  | nil => rfl
  | cons gap gaps =>
      obtain ⟨hgap, hrest⟩ := hpaced
      obtain ⟨hnext, hvalue⟩ := poll_synced (synced_reset b) gap
      have hcount : 0 + (if (b.systick.countflag ||
          decide (0 < (tick^[0] b.systick).crossings gap)) = true then 1 else 0) =
          b.systick.crossings (0 + gap) + staleWrap b.systick (gap :: gaps) := by
        show 0 + (if (b.systick.countflag || decide (0 < b.systick.crossings gap)) = true
          then 1 else 0) = _
        rw [Nat.zero_add, Nat.zero_add, staleWrap]
        cases b.systick.countflag with
        | false =>
            simp only [Bool.false_or, decide_eq_true_eq, Bool.false_eq_true, false_and, if_false]
            split <;> omega
        | true =>
            simp only [Bool.true_or, if_true, true_and]
            split <;> omega
      rw [hcount] at hnext hvalue
      rw [← Nat.zero_add gap] at hrest
      rw [readings, run_cons, times, List.map_cons, run_synced hnext hrest, hvalue, reading]

/-- The crossings are the whole periods since the reset, and one more when the counter has passed
zero but not yet its value at the reset. -/
theorem crossings_phase (s : SysTick) (t : Nat) :
    s.crossings t =
      t / 2 ^ 24 + if s.cvr = 0 ∨ t % 2 ^ 24 < s.cvr.toNat then 0 else 1 := by
  have hcvr := s.cvr.isLt
  have hzero : s.cvr = 0 ↔ s.cvr.toNat = 0 := BitVec.toNat_inj.symm
  rw [crossings_eq, if_congr (or_congr_left hzero) rfl rfl]
  split <;> omega

theorem reading_eq_iff (s : SysTick) {extra : Nat} (hextra : extra ≤ 1) (t : Nat) :
    reading s extra t = t ↔
      extra = 0 ∧ t < 2 ^ 56 ∧ (s.cvr = 0 ∨ t % 2 ^ 24 < s.cvr.toNat) := by
  rw [reading, crossings_phase]
  split
  · next h =>
      simp only [h, and_true]
      omega
  · next h =>
      simp only [h, and_false, iff_false]
      omega

theorem staleWrap_le (s : SysTick) (gaps : List Nat) : staleWrap s gaps ≤ 1 := by
  cases gaps with
  | nil => exact Nat.zero_le 1
  | cons gap gaps =>
      rw [staleWrap]
      split <;> omega

theorem staleWrap_eq_zero {s : SysTick} {gaps : List Nat} :
    staleWrap s gaps = 0 ↔ s.countflag = true → ∀ gap ∈ gaps.head?, s.crossings gap ≠ 0 := by
  cases gaps with
  | nil => simp [staleWrap]
  | cons gap gaps => simp [staleWrap]

theorem times_eq_nil {t : Nat} {gaps : List Nat} (h : times t gaps = []) : gaps = [] := by
  cases gaps with
  | nil => rfl
  | cons gap gaps => cases h

/-- The clock is right on a schedule when every read comes within the first 2^32 periods, at a
phase before the crossing of its period, and a flag that was set at the reset is taken together
with a crossing. -/
theorem measures_iff (b : Bench) (gaps : List Nat) (hpaced : Paced b.systick gaps) :
    Measures b gaps ↔
      (∀ t ∈ times 0 gaps,
        t < 2 ^ 56 ∧ (b.systick.cvr = 0 ∨ t % 2 ^ 24 < b.systick.cvr.toNat)) ∧
      (b.systick.countflag = true → ∀ gap ∈ gaps.head?, b.systick.crossings gap ≠ 0) := by
  have hle := staleWrap_le b.systick gaps
  have hpoint : Measures b gaps ↔
      ∀ t ∈ times 0 gaps, reading b.systick (staleWrap b.systick gaps) t = t := by
    rw [Measures, run_readings b hpaced]
    conv_lhs => rhs; rw [← List.map_id (times 0 gaps)]
    exact List.map_inj_left
  rw [hpoint, ← staleWrap_eq_zero]
  constructor
  · intro h
    refine ⟨fun t ht => ((reading_eq_iff _ hle t).mp (h t ht)).2, ?_⟩
    rcases htimes : times 0 gaps with _ | ⟨t, ts⟩
    · rw [times_eq_nil htimes]
      rfl
    · exact ((reading_eq_iff _ hle t).mp (h t (htimes ▸ List.mem_cons_self))).1
  · rintro ⟨h, hstale⟩ t ht
    exact (reading_eq_iff _ hle t).mpr ⟨hstale, h t ht⟩

/-- Reset at 100 with the flag set.  A read a period later, with one crossing in between, and one 50
ticks on are right; 60 ticks on the counter has passed zero again, and the third read is not. -/
theorem measures_two :
    Paced ⟨100, true⟩ [16777216, 50] ∧ Measures ⟨⟨100, true⟩, 7, 9⟩ [16777216, 50] ∧
      Paced ⟨100, true⟩ [16777216, 50, 60] ∧ ¬Measures ⟨⟨100, true⟩, 7, 9⟩ [16777216, 50, 60] := by
  have hperiod : crossings ⟨100, true⟩ 16777216 = 1 := by
    rw [crossings_eq]
    decide
  have hback : (tick^[16777216] ⟨100, true⟩).cvr = 100 := by
    rw [iterate_cvr]
    decide
  have hsecond : (tick^[16777216] ⟨100, true⟩).crossings 50 ≤ 1 := by
    rw [crossings_eq, hback]
    decide
  have hthird : (tick^[50] (tick^[16777216] ⟨100, true⟩)).crossings 60 ≤ 1 := by
    rw [crossings_eq, iterate_cvr, hback]
    decide
  have hpaced : Paced ⟨100, true⟩ [16777216, 50] := ⟨hperiod.le, hsecond, trivial⟩
  have hpaced' : Paced ⟨100, true⟩ [16777216, 50, 60] := ⟨hperiod.le, hsecond, hthird, trivial⟩
  refine ⟨hpaced, ?_, hpaced', ?_⟩
  · refine (measures_iff ⟨⟨100, true⟩, 7, 9⟩ [16777216, 50] hpaced).mpr ⟨by decide, ?_⟩
    rintro - gap ⟨⟩
    exact ne_of_eq_of_ne hperiod Nat.one_ne_zero
  · intro h
    have hphase := ((measures_iff ⟨⟨100, true⟩, 7, 9⟩ [16777216, 50, 60] hpaced').mp h).1
      16777326 (by decide)
    exact absurd hphase (by decide)

/-- A read six ticks after a reset at 5 returns 2^24 + 6. -/
theorem not_measures :
    ¬ ∀ (b : Bench) (gaps : List Nat), Paced b.systick gaps → Measures b gaps := by
  intro h
  have hpaced : Paced ⟨5, false⟩ [6] := ⟨by rw [crossings_eq]; decide, trivial⟩
  have hread := h ⟨⟨5, false⟩, 0, 0⟩ [6] hpaced
  have hvalue : readings ⟨⟨5, false⟩, 0, 0⟩ [6] = [2 ^ 24 + 6] := by decide
  rw [Measures, hvalue] at hread
  exact absurd hread (by decide)

end AsconDtls.Evaluation
