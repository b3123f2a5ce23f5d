import Mathlib.Data.Countable.Basic
import Mathlib.Data.Nat.Pairing
import Heimdall.Lib.System

/-!
# Fair executions

An `Execution` of a system goes on for ever; at some times nothing happens in it. Every step may
belong to a thread, which may depend on the state it is taken in, or to what is around the system.
An execution is `Fair` if no thread that could go on from some time on is left out for ever. There
are fair executions from every state (`exists_fair`).

What a fair execution comes to is proved with one rule (`Execution.reaches`): a measure that no step
raises, and at any time a thread that can go on and lowers the measure when it does, and that is
relied on until the measure is lowered.
-/

namespace System

variable {σ α ι : Type*} {M : System σ α}

variable (M) in
structure Execution where
  state : Nat → σ
  event : Nat → Option α
  next : ∀ k, event k = none ∧ state (k + 1) = state k ∨
    ∃ a, event k = some a ∧ M.step (state k) a (state (k + 1))

/-- What holds of a state and is kept holds from there on. -/
theorem Execution.invariant (x : M.Execution) (I : σ → Prop)
    (hstep : ∀ s a t, I s → M.step s a t → I t) {k : Nat} (h : I (x.state k)) {j : Nat}
    (hj : k ≤ j) : I (x.state j) := by
  induction j, hj using Nat.le_induction with
  | base => exact h
  | succ j _ ih =>
    rcases x.next j with ⟨-, heq⟩ | ⟨a, -, ha⟩
    · rw [heq]
      exact ih
    · exact hstep _ _ _ ih ha

section Fair

variable (thread : σ → α → Option ι)

variable (M) in
/-- The thread can go on. -/
def Enabled (s : σ) (p : ι) : Prop := ∃ a t, thread s a = some p ∧ M.step s a t

/-- The thread goes on or is seen unable to, time and again. -/
def Execution.FairTo (x : M.Execution) (p : ι) : Prop :=
  ∀ k, ∃ j, k ≤ j ∧ ((∃ a, x.event j = some a ∧ thread (x.state j) a = some p) ∨
    ¬ M.Enabled thread (x.state j) p)

def Execution.Fair (x : M.Execution) : Prop := ∀ p, x.FairTo thread p

variable {thread}

section LeadsTo

variable {x : M.Execution} {I goal : σ → Prop} {measure : σ → Nat} {helper : σ → ι}

/-- As long as the goal has not been reached, the measure is not raised. -/
theorem Execution.stays (hstep : ∀ s a t, I s → ¬ goal s → M.step s a t → goal t ∨ I t ∧
      (measure t < measure s ∨
        thread s a ≠ some (helper s) ∧ measure t = measure s ∧ helper t = helper s))
    {k : Nat} (hk : I (x.state k)) (hgoal : ∀ j, k ≤ j → ¬ goal (x.state j))
    (hlower : ∀ j, k ≤ j → I (x.state j) → measure (x.state k) ≤ measure (x.state j)) {j : Nat}
    (hj : k ≤ j) : I (x.state j) ∧ measure (x.state j) = measure (x.state k) ∧
      helper (x.state j) = helper (x.state k) := by
  induction j, hj using Nat.le_induction with
  | base => exact ⟨hk, rfl, rfl⟩
  | succ j hj ih =>
    obtain ⟨hI, hm, hh⟩ := ih
    rcases x.next j with ⟨-, heq⟩ | ⟨a, -, ha⟩
    · rw [heq]
      exact ⟨hI, hm, hh⟩
    · rcases hstep _ _ _ hI (hgoal j hj) ha with hg | ⟨hI', hlt | ⟨-, hm', hh'⟩⟩
      · exact absurd hg (hgoal (j + 1) (by omega))
      · have := hlower (j + 1) (by omega) hI'
        omega
      · exact ⟨hI', hm'.trans hm, hh'.trans hh⟩

/-- **The rule for what a fair execution comes to.** -/
theorem Execution.reaches (hfair : x.Fair thread) (I goal : σ → Prop) (measure : σ → Nat)
    (helper : σ → ι) (henabled : ∀ s, I s → ¬ goal s → M.Enabled thread s (helper s))
    (hstep : ∀ s a t, I s → ¬ goal s → M.step s a t → goal t ∨ I t ∧
      (measure t < measure s ∨
        thread s a ≠ some (helper s) ∧ measure t = measure s ∧ helper t = helper s))
    {k : Nat} (hk : I (x.state k)) : ∃ j, k ≤ j ∧ goal (x.state j) := by
  induction hm : measure (x.state k) using Nat.strong_induction_on generalizing k with
  | _ m ih =>
    by_contra hno
    have hgoal (j : Nat) (hj : k ≤ j) : ¬ goal (x.state j) := fun h => hno ⟨j, hj, h⟩
    have hlower (j : Nat) (hj : k ≤ j) (hI : I (x.state j)) :
        measure (x.state k) ≤ measure (x.state j) := by
      by_contra hlt
      obtain ⟨i, hi, hg⟩ := ih _ (by omega) hI rfl
      exact hgoal i (by omega) hg
    -- the helper of now is relied on until it goes on, and then the measure is lower
    obtain ⟨j, hj, htaken⟩ := hfair (helper (x.state k)) k
    obtain ⟨hI, hmj, hhj⟩ := Execution.stays hstep hk hgoal hlower hj
    rw [← hhj] at htaken
    rcases htaken with ⟨a, hevent, ha⟩ | hnot
    · rcases x.next j with ⟨hnone, -⟩ | ⟨b, hb, hs⟩
      · rw [hnone] at hevent
        cases hevent
      · obtain rfl : b = a := by simpa [hb] using hevent
        rcases hstep _ _ _ hI (hgoal j hj) hs with hg | ⟨hI', hlt | ⟨hne, -⟩⟩
        · exact hgoal (j + 1) (by omega) hg
        · have := hlower (j + 1) (by omega) hI'
          omega
        · exact hne ha
    · exact hnot (henabled _ hI (hgoal j hj))

/-- The same, with what holds until then. -/
theorem Execution.leadsTo (hfair : x.Fair thread) (I goal : σ → Prop) (measure : σ → Nat)
    (helper : σ → ι) (henabled : ∀ s, I s → ¬ goal s → M.Enabled thread s (helper s))
    (hstep : ∀ s a t, I s → ¬ goal s → M.step s a t → goal t ∨ I t ∧
      (measure t < measure s ∨
        thread s a ≠ some (helper s) ∧ measure t = measure s ∧ helper t = helper s))
    {k : Nat} (hk : I (x.state k)) :
    ∃ j, k ≤ j ∧ goal (x.state j) ∧ ∀ i, k ≤ i → i < j → I (x.state i) := by
  classical
  have hex := Execution.reaches hfair I goal measure helper henabled hstep hk
  obtain ⟨hj, hgoal⟩ := Nat.find_spec hex
  refine ⟨Nat.find hex, hj, hgoal, fun i hi hlt => ?_⟩
  have hnot {i : Nat} (hi : k ≤ i) (hlt : i < Nat.find hex) : ¬ goal (x.state i) :=
    fun h => Nat.find_min hex hlt ⟨hi, h⟩
  induction i, hi using Nat.le_induction with
  | base => exact hk
  | succ i hi ih =>
    rcases x.next i with ⟨-, heq⟩ | ⟨a, -, ha⟩
    · rw [heq]
      exact ih (by omega)
    · rcases hstep _ _ _ (ih (by omega)) (hnot hi (by omega)) ha with hg | ⟨hI, -⟩
      · exact absurd hg (hnot (by omega) hlt)
      · exact hI

end LeadsTo

open Classical in
variable (M thread) in
/-- A step of the thread, if it can go on. -/
noncomputable def attempt (p : ι) (s : σ) : Option α × σ :=
  if h : M.Enabled thread s p then (some h.choose, h.choose_spec.choose) else (none, s)

variable (M thread) in
theorem attempt_spec (p : ι) (s : σ) :
    (M.attempt thread p s = (none, s) ∧ ¬ M.Enabled thread s p) ∨
      ∃ a t, M.attempt thread p s = (some a, t) ∧ thread s a = some p ∧ M.step s a t := by
  unfold attempt
  by_cases h : M.Enabled thread s p
  · rw [dif_pos h]
    exact .inr ⟨_, _, rfl, h.choose_spec.choose_spec⟩
  · rw [dif_neg h]
    exact .inl ⟨rfl, h⟩

/-- The threads are tried in turn, each of them time and again. -/
theorem exists_fair [Countable ι] [Nonempty ι] (thread : σ → α → Option ι) (s : σ) :
    ∃ x : M.Execution, x.state 0 = s ∧ x.Fair thread := by
  obtain ⟨turn, hturn⟩ := exists_surjective_nat ι
  let state : Nat → σ :=
    fun k => Nat.rec s (fun j u => (M.attempt thread (turn j.unpair.1) u).2) k
  let event (k : Nat) : Option α := (M.attempt thread (turn k.unpair.1) (state k)).1
  refine ⟨⟨state, event, fun k => ?_⟩, rfl, fun p k => ?_⟩
  · rcases attempt_spec M thread (turn k.unpair.1) (state k) with
      ⟨h, -⟩ | ⟨a, t, h, -, ha⟩
    · exact .inl ⟨congrArg Prod.fst h, congrArg Prod.snd h⟩
    · refine .inr ⟨a, congrArg Prod.fst h, ?_⟩
      have hnext : state (k + 1) = t := congrArg Prod.snd h
      rw [hnext]
      exact ha
  · obtain ⟨i, rfl⟩ := hturn p
    refine ⟨Nat.pair i k, Nat.right_le_pair i k, ?_⟩
    have hi : (Nat.pair i k).unpair.1 = i := by rw [Nat.unpair_pair]
    rcases attempt_spec M thread (turn i) (state (Nat.pair i k)) with
      ⟨-, h⟩ | ⟨a, t, h, ha, -⟩
    · exact .inr h
    · refine .inl ⟨a, ?_, ha⟩
      change (M.attempt thread (turn (Nat.pair i k).unpair.1) (state (Nat.pair i k))).1 = some a
      rw [hi, h]

end Fair

end System
