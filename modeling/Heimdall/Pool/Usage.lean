import Mathlib.Algebra.BigOperators.Intervals
import Heimdall.Lib.System
import Heimdall.Pool.SharedMem

/-!
# The usage of the workers

The scan of `thread_pool_loop` keeps a minimum and a position, both -1 while no idle slot has been
seen. With counters that are not negative it ends at the last of the least used idle slots
(`scan_least`). Over a run of dispatches and releases the counters add up to the number of
dispatches, and where all slots are idle at each dispatch they stay level (`usage_level`).
-/

namespace Heimdall.Pool

open Heimdall.RoundRobin (Server)

section Least

variable {n k i : Nat} {m : THPSharedMem} {s : Scan}

/-- The counters of the slots are not negative, so that -1 is none of them. -/
def THPSharedMem.Counting (n : Nat) (m : THPSharedMem) : Prop :=
  ∀ i, i < n → 0 ≤ m.workerCounter i

/-- Slot `i` is idle and the least used of the first `k`; of several it is the last one. -/
structure LeastUsed (m : THPSharedMem) (k i : Nat) : Prop where
  lt : i < k
  idle : m.workerBusy i = 0
  le : ∀ j, j < k → m.workerBusy j = 0 → m.workerCounter i ≤ m.workerCounter j
  last : ∀ j, i < j → j < k → m.workerBusy j = 0 → m.workerCounter i < m.workerCounter j

/-- What the two variables hold after `k` slots. -/
def Scan.Least (m : THPSharedMem) (k : Nat) (s : Scan) : Prop :=
  s = ⟨-1, -1⟩ ∧ (∀ i, i < k → m.workerBusy i ≠ 0) ∨
    ∃ i, s = ⟨m.workerCounter i, i⟩ ∧ LeastUsed m k i

/-- A slot that is not used more than the least used one so far takes its place. -/
theorem LeastUsed.here (h : ∀ j, j < k → m.workerBusy j = 0 → m.workerCounter k ≤ m.workerCounter j)
    (hidle : m.workerBusy k = 0) : LeastUsed m (k + 1) k where
  lt := Nat.lt_succ_self k
  idle := hidle
  le j hj hjidle := by
    rcases Nat.lt_succ_iff_lt_or_eq.1 hj with hlt | rfl
    · exact h j hlt hjidle
    · exact le_refl _
  last j hkj hj _ := absurd hj (by omega)

/-- Any other slot leaves it in place. -/
theorem LeastUsed.skip (h : LeastUsed m k i)
    (hk : m.workerBusy k = 0 → m.workerCounter i < m.workerCounter k) : LeastUsed m (k + 1) i where
  lt := Nat.lt_succ_of_lt h.lt
  idle := h.idle
  le j hj hidle := by
    rcases Nat.lt_succ_iff_lt_or_eq.1 hj with hlt | rfl
    · exact h.le j hlt hidle
    · exact (hk hidle).le
  last j hij hj hidle := by
    rcases Nat.lt_succ_iff_lt_or_eq.1 hj with hlt | rfl
    · exact h.last j hij hlt hidle
    · exact hk hidle

theorem Scan.least_visit (hc : ∀ i, i < k → 0 ≤ m.workerCounter i) (h : s.Least m k) :
    (s.visit m k).Least m (k + 1) := by
  unfold Scan.visit
  by_cases hk : m.workerBusy k = 0
  · rw [if_pos hk]
    right
    rcases h with ⟨rfl, hbusy⟩ | ⟨i, rfl, hi⟩
    · exact ⟨k, by simp, .here (fun j hj hidle => absurd hidle (hbusy j hj)) hk⟩
    · -- the minimum is a counter, and no counter is -1
      have hmin : m.workerCounter i ≠ -1 := by
        have := hc i hi.lt
        omega
      simp only [hmin, if_false]
      split
      · next hle => exact ⟨k, rfl, .here (fun j hj hidle => hle.trans (hi.le j hj hidle)) hk⟩
      · next hlt => exact ⟨i, rfl, hi.skip fun _ => by omega⟩
  · rw [if_neg hk]
    rcases h with ⟨rfl, hbusy⟩ | ⟨i, rfl, hi⟩
    · refine .inl ⟨rfl, ?_⟩
      intro i hi
      rcases Nat.lt_succ_iff_lt_or_eq.1 hi with hlt | rfl
      · exact hbusy i hlt
      · exact hk
    · exact .inr ⟨i, rfl, hi.skip fun hidle => absurd hidle hk⟩

theorem scan_least (h : m.Counting n) : (scan n m).Least m n := by
  unfold scan
  induction n with
  | zero =>
    refine .inl ⟨rfl, ?_⟩
    intro i hi
    exact absurd hi (Nat.not_lt_zero i)
  | succ n ih =>
    have hc : ∀ i, i < n → 0 ≤ m.workerCounter i := fun i hi => h i (Nat.lt_succ_of_lt hi)
    rw [List.range_succ, List.foldl_append]
    exact Scan.least_visit hc (ih hc)

/-- With an idle slot, the position is the least used one. -/
theorem scan_leastUsed (h : m.Counting n) (hidle : ∃ i, i < n ∧ m.workerBusy i = 0) :
    ∃ i : Nat, (scan n m).position = i ∧ LeastUsed m n i := by
  rcases scan_least h with ⟨-, hbusy⟩ | ⟨i, heq, hi⟩
  · obtain ⟨i, hi, hz⟩ := hidle
    exact absurd hz (hbusy i hi)
  · exact ⟨i, by rw [heq], hi⟩

/-- What a dispatch does to the counters: that of a least used idle slot goes up by one. -/
theorem selectWorker_counter {server : Server} {pid : Int} {m' : THPSharedMem} (h : m.Counting n)
    (hsel : selectWorker n server m = some (i, pid, m')) :
    LeastUsed m n i ∧
      m'.workerCounter = Function.update m.workerCounter i (m.workerCounter i + 1) := by
  unfold selectWorker at hsel
  split at hsel
  · cases hsel
  · rename_i hpos
    cases hsel
    rcases scan_least h with ⟨heq, -⟩ | ⟨i, heq, hi⟩
    · rw [heq] at hpos
      exact absurd rfl hpos
    · rw [heq, Int.toNat_natCast]
      exact ⟨hi, rfl⟩

end Least

/-! ## Level counters -/

section Level

variable {n k : Nat} {f : Nat → Int}

/-- Any two of the first `n` values differ by at most one. -/
def Level (n : Nat) (f : Nat → Int) : Prop := ∀ i j, i < n → j < n → f i ≤ f j + 1

/-- Raising a least value by one keeps the values level. -/
theorem Level.raise (h : Level n f) (hk : k < n) (hmin : ∀ j, j < n → f k ≤ f j) :
    Level n (Function.update f k (f k + 1)) := by
  intro i j hi hj
  have hkj := hmin j hj
  by_cases hik : i = k <;> by_cases hjk : j = k
  · subst hik hjk; omega
  · subst hik
    rw [Function.update_self, Function.update_of_ne hjk]
    omega
  · subst hjk
    rw [Function.update_self, Function.update_of_ne hik]
    have := h i j hi hj
    omega
  · rw [Function.update_of_ne hik, Function.update_of_ne hjk]
    exact h i j hi hj

theorem sum_raise (hk : k < n) :
    ∑ i ∈ Finset.range n, Function.update f k (f k + 1) i = ∑ i ∈ Finset.range n, f i + 1 := by
  have hmem : k ∈ Finset.range n := Finset.mem_range.2 hk
  rw [Finset.sum_update_of_mem hmem, ← Finset.sum_sdiff (Finset.singleton_subset_iff.2 hmem),
    Finset.sum_singleton]
  omega

end Level

/-! ## Runs -/

/-- The parent gives a connection to a worker, or a worker is idle again. -/
inductive UsageEvent
  | dispatch (server : Server)
  | release (pid : Int)

inductive UsageStep (n : Nat) : THPSharedMem → UsageEvent → THPSharedMem → Prop
  | dispatch {m m' : THPSharedMem} {server : Server} {i : Nat} {pid : Int}
      (hsel : selectWorker n server m = some (i, pid, m')) (hfit : FitsInt (m'.workerCounter i)) :
      UsageStep n m (.dispatch server) m'
  | release (m : THPSharedMem) (pid : Int) : UsageStep n m (.release pid) (release n pid m)

def usage (n : Nat) : System THPSharedMem UsageEvent where
  init m := ∀ i, i < n → m.workerCounter i = 0
  step := UsageStep n

def UsageEvent.isDispatch : UsageEvent → Bool
  | .dispatch _ => true
  | .release _ => false

/-- A dispatch finds all workers idle. -/
def AllIdle (n : Nat) (m : THPSharedMem) (a : UsageEvent) (_ : THPSharedMem) : Prop :=
  a.isDispatch = true → ∀ i, i < n → m.workerBusy i = 0

section Runs

variable {n : Nat} {m m' : THPSharedMem} {a : UsageEvent} {as : List UsageEvent}

@[simp] theorem release_counter (n : Nat) (pid : Int) (m : THPSharedMem) :
    (release n pid m).workerCounter = m.workerCounter := by
  unfold release
  split <;> rfl

/-- What a step does to the counters. -/
theorem UsageStep.counter (hstep : UsageStep n m a m') (h : m.Counting n) :
    (a.isDispatch = true ∧ ∃ i, LeastUsed m n i ∧
      m'.workerCounter = Function.update m.workerCounter i (m.workerCounter i + 1)) ∨
      (a.isDispatch = false ∧ m'.workerCounter = m.workerCounter) := by
  cases hstep with
  | dispatch hsel hfit => exact .inl ⟨rfl, _, selectWorker_counter h hsel⟩
  | release pid => exact .inr ⟨rfl, release_counter n pid m⟩

theorem UsageStep.counting (hstep : UsageStep n m a m') (h : m.Counting n) : m'.Counting n := by
  intro j hj
  rcases hstep.counter h with ⟨-, i, -, heq⟩ | ⟨-, heq⟩
  · rw [heq]
    by_cases hji : j = i
    · subst hji
      have := h j hj
      rw [Function.update_self]
      omega
    · rw [Function.update_of_ne hji]
      exact h j hj
  · rw [heq]
    exact h j hj

theorem counting_of_init (h : (usage n).init m) : m.Counting n := fun i hi => (h i hi).ge

/-- **The counters count.** A run raises their sum by the number of its dispatches. -/
theorem usage_sum (h : (usage n).Run m as m') (hm : m.Counting n) :
    ∑ i ∈ Finset.range n, m'.workerCounter i =
      ∑ i ∈ Finset.range n, m.workerCounter i + as.countP UsageEvent.isDispatch := by
  induction h with
  | nil => simp
  | cons hs _ ih =>
    rw [ih (hs.counting hm)]
    rcases hs.counter hm with ⟨hd, i, hi, heq⟩ | ⟨hd, heq⟩
    · rw [heq, sum_raise hi.lt, List.countP_cons_of_pos hd]
      push_cast
      omega
    · rw [heq, List.countP_cons_of_neg (Bool.eq_false_iff.1 hd)]

/-- **The usage stays level** while every dispatch finds all workers idle. -/
theorem usage_level (h : ((usage n).restrict (AllIdle n)).Run m as m') (hm : m.Counting n)
    (hlevel : Level n m.workerCounter) : Level n m'.workerCounter := by
  refine (h.invariant (fun m => m.Counting n ∧ Level n m.workerCounter) ?_ ⟨hm, hlevel⟩).2
  rintro m a m' ⟨hc, hl⟩ ⟨hs, hidle⟩
  refine ⟨hs.counting hc, ?_⟩
  rcases hs.counter hc with ⟨hd, i, hi, heq⟩ | ⟨-, heq⟩
  · rw [heq]
    exact hl.raise hi.lt fun j hj => hi.le j hj (hidle hd j hj)
  · rw [heq]
    exact hl

/-- **The dispatch is a least-used one.** The scan ends without a position exactly when every worker
is busy, and at an idle worker with a minimal counter otherwise. From zero counters, a run makes the
counters add up to the number of its dispatches, and leaves any two of them at most one apart when
every dispatch finds all workers idle. -/
theorem dispatch_balanced (n : Nat) :
    (∀ m : THPSharedMem, m.Counting n →
      ((scan n m).position = -1 ↔ ∀ i, i < n → m.workerBusy i ≠ 0) ∧
      ((∃ i, i < n ∧ m.workerBusy i = 0) →
        ∃ i : Nat, (scan n m).position = i ∧ i < n ∧ m.workerBusy i = 0 ∧
          ∀ j, j < n → m.workerBusy j = 0 → m.workerCounter i ≤ m.workerCounter j)) ∧
    (∀ m as m', (usage n).init m → (usage n).Run m as m' →
      ∑ i ∈ Finset.range n, m'.workerCounter i = as.countP UsageEvent.isDispatch) ∧
    (∀ m as m', (usage n).init m → ((usage n).restrict (AllIdle n)).Run m as m' →
      ∀ i j, i < n → j < n → m'.workerCounter i ≤ m'.workerCounter j + 1) := by
  refine ⟨?_, ?_, ?_⟩
  · intro m hm
    refine ⟨scan_position, ?_⟩
    intro hidle
    obtain ⟨i, hpos, hi⟩ := scan_leastUsed hm hidle
    exact ⟨i, hpos, hi.lt, hi.idle, hi.le⟩
  · intro m as m' hinit hrun
    have hzero : ∑ i ∈ Finset.range n, m.workerCounter i = 0 :=
      Finset.sum_eq_zero fun i hi => hinit i (Finset.mem_range.1 hi)
    rw [usage_sum hrun (counting_of_init hinit), hzero, zero_add]
  · intro m as m' hinit hrun
    refine usage_level hrun (counting_of_init hinit) ?_
    intro i j hi hj
    rw [hinit i hi, hinit j hj]
    decide

end Runs

end Heimdall.Pool
