import Mathlib.Order.Basic

/-!
# Bounded loops

`Loop.run body out n s` is the unbounded loop `for (;;) body`, run from `s` for at most `n` passes.
A pass may leave the loop, go on, or stop with an error of its own; the error `out` says that the
passes were used up. What a loop returns does not depend on the bound (`run_mono`, `run_agree`),
so "the loop returns `r`" is read as "it returns `r` under some bound".

`run_invariant` reasons about what holds of every result without looking at the bound.
-/

namespace Loop

/-- What one pass of a loop body does: go on from a new state, or leave with a result. -/
inductive Pass (σ ρ : Type*)
  | again (s : σ)
  | leave (r : ρ)

variable {σ ρ ε : Type*}

/-- The loop with body `body` from `s`, for at most `n` passes. -/
def run (body : σ → Except ε (Pass σ ρ)) (out : ε) : Nat → σ → Except ε ρ
  | 0, _ => .error out
  | n + 1, s =>
    match body s with
    | .error e => .error e
    | .ok (.leave r) => .ok r
    | .ok (.again t) => run body out n t

variable {body : σ → Except ε (Pass σ ρ)} {out : ε}

theorem run_leave {s : σ} {r : ρ} (h : body s = .ok (.leave r)) (n : Nat) :
    run body out (n + 1) s = .ok r := by
  simp only [run, h]

theorem run_again {s t : σ} (h : body s = .ok (.again t)) (n : Nat) :
    run body out (n + 1) s = run body out n t := by
  simp only [run, h]

theorem run_error {s : σ} {e : ε} (h : body s = .error e) (n : Nat) :
    run body out (n + 1) s = .error e := by
  simp only [run, h]

/-- A result is reached in one pass, or after a pass that goes on. -/
theorem run_ok_cases {n : Nat} {s : σ} {r : ρ} (h : run body out n s = .ok r) :
    ∃ m, n = m + 1 ∧ (body s = .ok (.leave r) ∨
      ∃ t, body s = .ok (.again t) ∧ run body out m t = .ok r) := by
  cases n with
  | zero => cases h
  | succ m =>
    refine ⟨m, rfl, ?_⟩
    rcases hb : body s with e | p
    · rw [run_error hb] at h; cases h
    · cases p with
      | leave r' => rw [run_leave hb] at h; cases h; exact Or.inl rfl
      | again t => rw [run_again hb] at h; exact Or.inr ⟨t, rfl, h⟩

/-- A result stays the result under every larger bound. -/
theorem run_mono {n m : Nat} {s : σ} {r : ρ} (h : run body out n s = .ok r) (hnm : n ≤ m) :
    run body out m s = .ok r := by
  induction n generalizing m s with
  | zero => cases h
  | succ n ih =>
    obtain ⟨m', rfl⟩ : ∃ m', m = m' + 1 := ⟨m - 1, by omega⟩
    obtain ⟨k, hk, hl | ⟨t, ha, ht⟩⟩ := run_ok_cases h
    · exact run_leave hl m'
    · cases hk
      rw [run_again ha]
      exact ih ht (by omega)

/-- The bound does not decide the result. -/
theorem run_agree {n m : Nat} {s : σ} {r r' : ρ} (h : run body out n s = .ok r)
    (h' : run body out m s = .ok r') : r = r' := by
  have h₁ := run_mono h (Nat.le_max_left n m)
  have h₂ := run_mono h' (Nat.le_max_right n m)
  rw [h₁] at h₂
  cases h₂
  rfl

/-- **The invariant rule.** What every pass keeps and every leaving pass turns into `Q` gives `Q`
of the result. -/
theorem run_invariant (I : σ → Prop) (Q : ρ → Prop)
    (hagain : ∀ s t, I s → body s = .ok (.again t) → I t)
    (hleave : ∀ s r, I s → body s = .ok (.leave r) → Q r)
    {n : Nat} {s : σ} {r : ρ} (hs : I s) (h : run body out n s = .ok r) : Q r := by
  induction n generalizing s with
  | zero => cases h
  | succ n ih =>
    obtain ⟨k, hk, hl | ⟨t, ha, ht⟩⟩ := run_ok_cases h
    · exact hleave s r hs hl
    · cases hk
      exact ih (hagain s t hs ha) ht

end Loop
