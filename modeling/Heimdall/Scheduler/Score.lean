import Heimdall.Scheduler.Update
import Mathlib.Tactic.Linarith

/-!
# The score of a status report

`apache_score` maps the idle workers of a machine to a weight from 1 to 5. It counts both the idle
workers and all workers from `WEIGHT_DEFAULT` on, so a machine with a single worker has nothing to
divide by, and a machine without an idle worker starts below the interval: as long as it has few
busy workers, truncation does not bring the weight back up to 1.
-/

namespace Heimdall.Scheduling

open Heimdall.RoundRobin

/-- The worker counts of a status report, two `int`s that are not negative. -/
structure Report where
  idle : Int
  busy : Int
  idle_nonneg : 0 ≤ idle
  busy_nonneg : 0 ≤ busy
  idle_le : idle ≤ intMax
  busy_le : busy ≤ intMax

/-- `r` reports at most as many idle workers as `r'`, and at least as many busy ones. -/
structure Report.LessAvailable (r r' : Report) : Prop where
  idle_le : r.idle ≤ r'.idle
  busy_le : r'.busy ≤ r.busy

/-- The formula, in exact integers. -/
def Report.weight (r : Report) : Int := ((r.idle - 1) * 4).tdiv (r.busy + r.idle - 1) + 1

/-- `apache_score` gives a server with this report the weight `w`. -/
def Report.Stores (r : Report) (w : Int) : Prop :=
  ∀ server, apacheScore (.parsed r.idle r.busy) server
    = .ok (.create statusOk .null "apache_score",
        { server with weight := w, status := serverStatusReady })

/-- The counts for which the formula has a value in `int`. -/
structure Report.Defined (r : Report) : Prop where
  total_le : r.idle + r.busy ≤ intMax
  scaled_le : r.idle ≤ 536870912
  total_ne : r.idle + r.busy ≠ 1

/-- No idle worker, and busy ones too few for the quotient to be truncated to 0. -/
def Report.Starved (r : Report) : Prop := r.idle = 0 ∧ 2 ≤ r.busy ∧ r.busy ≤ 5

/-! ## The formula in `int` -/

section Score

variable {r r' : Report} {w : Int}

theorem score_of_defined (h : r.Defined) : score r.idle r.busy = .ok r.weight := by
  obtain ⟨htotal, hscaled, hne⟩ := h
  have hi := r.idle_nonneg
  have hb := r.busy_nonneg
  have hfits : ∀ x : Int, -4 ≤ x → x ≤ 2147483647 → checkInt x = .ok x := by
    intro x h₁ h₂
    exact checkInt_of_fits ⟨by unfold intMin; omega, h₂⟩
  unfold intMax at htotal
  -- the quotient is no further from 0 than the dividend
  have hquot : -4 ≤ ((r.idle - 1) * 4).tdiv (r.busy + r.idle - 1) ∧
      ((r.idle - 1) * 4).tdiv (r.busy + r.idle - 1) ≤ 2147483646 := by
    have habs := Int.natAbs_tdiv_le_natAbs ((r.idle - 1) * 4) (r.busy + r.idle - 1)
    rcases Int.lt_or_le r.idle 1 with h0 | h1
    · omega
    · have hnn := Int.tdiv_nonneg (a := (r.idle - 1) * 4) (b := r.busy + r.idle - 1) (by omega)
        (by omega)
      omega
  unfold score weightDefault weightMaximum
  rw [hfits (r.busy + r.idle) (by omega) (by omega), Exec.ok_bind,
    hfits (r.idle - 1) (by omega) (by omega), Exec.ok_bind,
    hfits ((r.idle - 1) * (5 - 1)) (by omega) (by omega), Exec.ok_bind,
    hfits (r.busy + r.idle - 1) (by omega) (by omega), Exec.ok_bind, if_neg (by omega)]
  change checkInt (((r.idle - 1) * 4).tdiv (r.busy + r.idle - 1)) >>= _ = _
  rw [hfits _ hquot.1 (by omega), Exec.ok_bind, hfits _ (by omega) (by omega)]
  rfl

theorem defined_of_score (h : score r.idle r.busy = .ok w) : r.Defined := by
  have hi := r.idle_nonneg
  obtain ⟨total, h₁, h⟩ := Exec.bind_ok h
  obtain ⟨idle, h₂, h⟩ := Exec.bind_ok h
  obtain ⟨scaled, h₃, h⟩ := Exec.bind_ok h
  obtain ⟨total', h₄, h⟩ := Exec.bind_ok h
  obtain ⟨rfl, htotal⟩ := checkInt_ok h₁
  obtain ⟨rfl, -⟩ := checkInt_ok h₂
  obtain ⟨rfl, hscaled⟩ := checkInt_ok h₃
  obtain ⟨rfl, -⟩ := checkInt_ok h₄
  unfold weightDefault weightMaximum at h hscaled
  split at h
  · cases h
  · rename_i hne
    have hle := htotal.2
    have hle' := hscaled.2
    unfold intMax at hle'
    exact ⟨by omega, by omega, by omega⟩

/-- **What is stored**: the formula's value, exactly when that has one. -/
theorem Report.stores_iff : r.Stores w ↔ r.Defined ∧ w = r.weight := by
  have hi := r.idle_nonneg
  unfold Report.Stores apacheScore
  simp only [if_neg (Int.not_lt.2 hi)]
  constructor
  · intro h
    obtain ⟨w', hw, h⟩ := Exec.bind_ok (h ⟨0, 0, 0, 0⟩)
    have hdef := defined_of_score hw
    rw [score_of_defined hdef] at hw
    cases hw
    cases h
    exact ⟨hdef, rfl⟩
  · intro h server
    rw [score_of_defined h.1, Exec.ok_bind, h.2]

/-! ## The interval, and availability -/

/-- Without an idle worker the dividend is -4. -/
theorem Report.weight_of_idle_zero (h : r.idle = 0) :
    r.weight = (-4 : Int).tdiv (r.busy - 1) + 1 := by
  unfold Report.weight
  rw [h, Int.add_zero]
  rfl

theorem Report.weight_of_busy (h : r.idle = 0) (hb : 6 ≤ r.busy) : r.weight = 1 := by
  rw [weight_of_idle_zero h, Int.neg_tdiv, Int.tdiv_eq_zero_of_lt (by omega) (by omega)]
  rfl

/-- With an idle worker the dividend is not negative, and at most four times the divisor. -/
theorem Report.weight_of_idle (h : 1 ≤ r.idle) :
    r.weight = (r.idle - 1) * 4 / (r.busy + r.idle - 1) + 1 := by
  unfold Report.weight
  rw [Int.tdiv_eq_ediv_of_nonneg (by omega)]

theorem Report.weight_bounds (h : 1 ≤ r.idle) (hne : r.idle + r.busy ≠ 1) :
    1 ≤ r.weight ∧ r.weight ≤ 5 := by
  have hb := r.busy_nonneg
  rw [weight_of_idle h]
  have hnn : 0 ≤ (r.idle - 1) * 4 / (r.busy + r.idle - 1) :=
    Int.ediv_nonneg (by omega) (by omega)
  have hle : (r.idle - 1) * 4 / (r.busy + r.idle - 1) ≤ 4 :=
    Int.ediv_le_of_le_mul (by omega) (by omega)
  omega

/-- **The interval** is left by starved reports only. -/
theorem Report.weight_range_iff (hdef : r.Defined) :
    (1 ≤ r.weight ∧ r.weight ≤ 5) ↔ ¬ r.Starved := by
  have hb := r.busy_nonneg
  have hne := hdef.total_ne
  rcases Int.lt_or_le r.idle 1 with h0 | h1
  · have hi : r.idle = 0 := by have := r.idle_nonneg; omega
    have hne' : r.busy ≠ 1 := by omega
    rw [weight_of_idle_zero hi]
    unfold Report.Starved
    rcases Int.lt_or_le r.busy 6 with hlt | hge
    · have hcases : r.busy = 0 ∨ r.busy = 2 ∨ r.busy = 3 ∨ r.busy = 4 ∨ r.busy = 5 := by omega
      rcases hcases with hb | hb | hb | hb | hb <;> simp [hb, hi]
    · rw [← weight_of_idle_zero hi, weight_of_busy hi hge]
      omega
  · have hw := weight_bounds h1 hne
    exact iff_of_true hw (by unfold Report.Starved; omega)

/-- More idle and fewer busy workers never weigh less, within the interval. -/
theorem Report.weight_mono (h : r.LessAvailable r') (hdef : r.Defined) (hdef' : r'.Defined)
    (hs : ¬ r.Starved) (hs' : ¬ r'.Starved) : r.weight ≤ r'.weight := by
  obtain ⟨hidle, hbusy⟩ := h
  have hb := r.busy_nonneg
  have hb' := r'.busy_nonneg
  have hw' := (weight_range_iff hdef').2 hs'
  have hne := hdef.total_ne
  have hne' := hdef'.total_ne
  rcases Int.lt_or_le r.idle 1 with h0 | h1
  · have hi : r.idle = 0 := by have := r.idle_nonneg; omega
    rcases Int.lt_or_le r.busy 6 with hlt | hge
    · -- no worker at all: then the other machine has only idle ones
      have hbz : r.busy = 0 := by unfold Report.Starved at hs; omega
      have hbz' : r'.busy = 0 := by omega
      have h5 : r.weight = 5 := by rw [weight_of_idle_zero hi, hbz]; rfl
      have h5' : r'.weight = 5 := by
        rcases Int.lt_or_le r'.idle 1 with h0' | h1'
        · have hi' : r'.idle = 0 := by have := r'.idle_nonneg; omega
          rw [weight_of_idle_zero hi', hbz']
          rfl
        · rw [weight_of_idle h1', hbz', Int.zero_add, Int.mul_ediv_cancel_left _ (by omega)]
          rfl
      omega
    · rw [weight_of_busy hi hge]
      exact hw'.1
  · rw [weight_of_idle h1, weight_of_idle (Int.le_trans h1 hidle)]
    -- cross-multiplied, the two fractions differ by what the busy workers make up
    have hq : (r.idle - 1) * 4 / (r.busy + r.idle - 1)
        ≤ (r'.idle - 1) * 4 / (r'.busy + r'.idle - 1) := by
      rw [Int.le_ediv_iff_mul_le (by omega)]
      have hpos : 0 < r.busy + r.idle - 1 := by omega
      have hself := Int.ediv_mul_le ((r.idle - 1) * 4) (b := r.busy + r.idle - 1) (by omega)
      generalize hd : (r.idle - 1) * 4 / (r.busy + r.idle - 1) = q at hself ⊢
      have hqnn : 0 ≤ q := by rw [← hd]; exact Int.ediv_nonneg (by omega) (by omega)
      have hq4 : q ≤ 4 := by rw [← hd]; exact Int.ediv_le_of_le_mul hpos (by omega)
      have hdrop : 0 ≤ q * (r.busy - r'.busy) := Int.mul_nonneg hqnn (by omega)
      have hrise : 0 ≤ (4 - q) * (r'.idle - r.idle) := Int.mul_nonneg (by omega) (by omega)
      linarith
    omega

end Score

/-! ## A mapping into `[w, W]` -/

/-- The counts that the formula maps into the interval. -/
def Report.Mapped (r : Report) : Prop := r.Defined ∧ ¬ r.Starved

/-- Both reports are mapped into the interval, the less available one no higher than the other. -/
def Report.MappedInOrder (r r' : Report) : Prop :=
  ∃ w w', r.Stores w ∧ r'.Stores w' ∧ weightDefault ≤ w ∧ w ≤ w' ∧ w' ≤ weightMaximum

/-- **The mapping of the score.** For a report and a more available one, both weights are defined,
in the interval and in order, exactly when neither is undefined or starved. -/
theorem mappedInOrder_iff {r r' : Report} (h : r.LessAvailable r') :
    r.MappedInOrder r' ↔ r.Mapped ∧ r'.Mapped := by
  constructor
  · intro ⟨w, w', hw, hw', hlow, hle, hhigh⟩
    obtain ⟨hdef, rfl⟩ := Report.stores_iff.1 hw
    obtain ⟨hdef', rfl⟩ := Report.stores_iff.1 hw'
    exact ⟨⟨hdef, (Report.weight_range_iff hdef).1 ⟨hlow, Int.le_trans hle hhigh⟩⟩,
      ⟨hdef', (Report.weight_range_iff hdef').1 ⟨Int.le_trans hlow hle, hhigh⟩⟩⟩
  · intro ⟨⟨hdef, hs⟩, ⟨hdef', hs'⟩⟩
    exact ⟨r.weight, r'.weight, Report.stores_iff.2 ⟨hdef, rfl⟩, Report.stores_iff.2 ⟨hdef', rfl⟩,
      ((Report.weight_range_iff hdef).2 hs).1, Report.weight_mono h hdef hdef' hs hs',
      ((Report.weight_range_iff hdef').2 hs').2⟩

/-- Three idle workers of ten. -/
def Report.busyServer : Report := ⟨3, 7, by decide, by decide, by decide, by decide⟩

/-- Nine idle workers of ten. -/
def Report.freeServer : Report := ⟨9, 1, by decide, by decide, by decide, by decide⟩

theorem mappedInOrder_busy_free : Report.busyServer.MappedInOrder Report.freeServer :=
  (mappedInOrder_iff ⟨by decide, by decide⟩).2
    ⟨⟨⟨by decide, by decide, by decide⟩, fun h => absurd h.1 (by decide)⟩,
      ⟨⟨by decide, by decide, by decide⟩, fun h => absurd h.1 (by decide)⟩⟩

/-- One worker, which is idle. -/
def Report.loneWorker : Report := ⟨1, 0, by decide, by decide, by decide, by decide⟩

/-- For a single idle worker the formula divides 0 by 0. -/
theorem score_undefined : ¬ ∀ r r' : Report, r.LessAvailable r' → r.MappedInOrder r' := by
  intro h
  obtain ⟨w, -, hw, -⟩ := h .loneWorker .loneWorker ⟨Int.le_refl _, Int.le_refl _⟩
  exact (Report.stores_iff.1 hw).1.total_ne rfl

end Heimdall.Scheduling
