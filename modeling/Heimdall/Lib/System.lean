import Mathlib.Order.Basic

/-!
# Labelled transition systems

A `System` has initial states and labelled steps. `Run s as t` says that the steps labelled `as`
lead from `s` to `t`. Everything that is proved of a run goes through one induction
(`Run.invariant`, `Reachable.invariant`): what one step keeps, every run keeps. A system simulates
another along a map of the states (`Reachable.map`), and the two have the same runs where the map
is a bisimulation (`Run.bisim`). A condition on the steps of a run is a restriction of the system
(`restrict`).
-/

/-- Initial states and labelled steps. -/
structure System (σ α : Type*) where
  init : σ → Prop
  step : σ → α → σ → Prop

namespace System

variable {σ α : Type*} (M : System σ α)

/-- The steps labelled `as` lead from `s` to `t`. -/
inductive Run : σ → List α → σ → Prop
  | nil (s : σ) : Run s [] s
  | cons {s t u : σ} {a : α} {as : List α} : M.step s a t → Run t as u → Run s (a :: as) u

/-- A state that some run leads to from an initial state. -/
def Reachable (t : σ) : Prop := ∃ s as, M.init s ∧ M.Run s as t

variable {M}

theorem Run.single {s t : σ} {a : α} (h : M.step s a t) : M.Run s [a] t := .cons h (.nil t)

theorem Run.append {s t u : σ} {as bs : List α} (h : M.Run s as t) (h' : M.Run t bs u) :
    M.Run s (as ++ bs) u := by
  induction h with
  | nil => exact h'
  | cons hs _ ih => exact .cons hs (ih h')

theorem Run.split {s u : σ} {as bs : List α} (h : M.Run s (as ++ bs) u) :
    ∃ t, M.Run s as t ∧ M.Run t bs u := by
  induction as generalizing s with
  | nil => exact ⟨s, .nil s, h⟩
  | cons a as ih =>
    cases h with
    | cons hs hr =>
      obtain ⟨t, h₁, h₂⟩ := ih hr
      exact ⟨t, .cons hs h₁, h₂⟩

theorem Run.nil_inv {s t : σ} (h : M.Run s [] t) : t = s := by cases h; rfl

theorem Run.snoc_inv {s u : σ} {a : α} {as : List α} (h : M.Run s (as ++ [a]) u) :
    ∃ t, M.Run s as t ∧ M.step t a u := by
  obtain ⟨t, h₁, h₂⟩ := h.split
  cases h₂ with
  | cons hs hr => obtain rfl := hr.nil_inv; exact ⟨t, h₁, hs⟩

/-- **The invariant rule.** What every step keeps, every run keeps. -/
theorem Run.invariant (I : σ → Prop) (hstep : ∀ s a t, I s → M.step s a t → I t) {s t : σ}
    {as : List α} (h : M.Run s as t) (hs : I s) : I t := by
  induction h with
  | nil => exact hs
  | cons ha _ ih => exact ih (hstep _ _ _ hs ha)

theorem Reachable.invariant (I : σ → Prop) (hinit : ∀ s, M.init s → I s)
    (hstep : ∀ s a t, I s → M.step s a t → I t) {t : σ} (h : M.Reachable t) : I t := by
  obtain ⟨s, as, hs, hr⟩ := h
  exact hr.invariant I hstep (hinit s hs)

theorem Reachable.run {s t : σ} {as : List α} (h : M.Reachable s) (hr : M.Run s as t) :
    M.Reachable t := by
  obtain ⟨s₀, bs, hs₀, hr₀⟩ := h
  exact ⟨s₀, bs ++ as, hs₀, hr₀.append hr⟩

theorem Reachable.step {s t : σ} {a : α} (h : M.Reachable s) (ha : M.step s a t) :
    M.Reachable t := h.run (.single ha)

theorem Reachable.of_init {s : σ} (h : M.init s) : M.Reachable s := ⟨s, [], h, .nil s⟩

/-- The invariant rule for steps that are known to start from a reachable state. -/
theorem Reachable.induct (I : σ → Prop) (hinit : ∀ s, M.init s → I s)
    (hstep : ∀ s a t, M.Reachable s → I s → M.step s a t → I t) {t : σ} (h : M.Reachable t) :
    I t := by
  refine (h.invariant (fun s => M.Reachable s ∧ I s) ?_ ?_).2
  · intro s hs
    exact ⟨.of_init hs, hinit s hs⟩
  · rintro s a t ⟨hs, hi⟩ ha
    exact ⟨hs.step ha, hstep s a t hs hi ha⟩

/-- **A simulation.** Where each step from a reachable state of `M` is one of `N` or leaves what `f`
sees alone, `f` sees reachable states. -/
theorem Reachable.map {τ β : Type*} {N : System τ β} (f : σ → τ)
    (hinit : ∀ s, M.init s → N.init (f s))
    (hstep : ∀ s a t, M.Reachable s → M.step s a t → f t = f s ∨ ∃ b, N.step (f s) b (f t)) {s : σ}
    (h : M.Reachable s) : N.Reachable (f s) := by
  apply h.induct fun s => N.Reachable (f s)
  · intro s hs
    exact .of_init (hinit s hs)
  · intro s a t hs hf ha
    rcases hstep s a t hs ha with heq | ⟨b, hb⟩
    · rw [heq]
      exact hf
    · exact hf.step hb

/-- **A bisimulation.** Where the states with `I` take the steps that `f` sees, and no others, `f`
sees the runs from them. -/
theorem Run.bisim {τ : Type*} {N : System τ α} (f : σ → τ) (I : σ → Prop)
    (hkeep : ∀ s a t, I s → M.step s a t → I t)
    (hforth : ∀ s a t, I s → M.step s a t → N.step (f s) a (f t))
    (hback : ∀ s a u, I s → N.step (f s) a u → ∃ t, M.step s a t ∧ f t = u) {s : σ} (hs : I s)
    (as : List α) (u : τ) : N.Run (f s) as u ↔ ∃ t, M.Run s as t ∧ f t = u := by
  constructor
  · intro h
    induction as generalizing s with
    | nil => exact ⟨s, .nil s, h.nil_inv.symm⟩
    | cons a as ih =>
      cases h with
      | cons ha hr =>
        obtain ⟨t, ht, rfl⟩ := hback s a _ hs ha
        obtain ⟨t', hrun, ht'⟩ := ih (hkeep s a t hs ht) hr
        exact ⟨t', .cons ht hrun, ht'⟩
  · rintro ⟨t, h, rfl⟩
    induction h with
    | nil s => exact .nil (f s)
    | cons ha _ ih => exact .cons (hforth _ _ _ hs ha) (ih (hkeep _ _ _ hs ha))

/-! ## Runs under a condition -/

variable (M) in
/-- The system whose steps are those of `M` that meet the condition `G`: its runs are the runs of
`M` whose steps all meet it. -/
def restrict (G : σ → α → σ → Prop) : System σ α where
  init := M.init
  step s a t := M.step s a t ∧ G s a t

theorem Run.of_restrict {G : σ → α → σ → Prop} {s t : σ} {as : List α}
    (h : (M.restrict G).Run s as t) : M.Run s as t := by
  induction h with
  | nil s => exact .nil s
  | cons ha _ ih => exact .cons ha.1 ih

/-- A run whose steps all meet the condition. -/
theorem Run.to_restrict {G : σ → α → σ → Prop} {s t : σ} {as : List α} (h : M.Run s as t)
    (hG : ∀ s a t, a ∈ as → G s a t) : (M.restrict G).Run s as t := by
  induction h with
  | nil s => exact .nil s
  | cons ha _ ih =>
    exact .cons ⟨ha, hG _ _ _ List.mem_cons_self⟩
      (ih fun s a t hmem => hG s a t (List.mem_cons_of_mem _ hmem))

theorem Reachable.of_restrict {G : σ → α → σ → Prop} {t : σ} (h : (M.restrict G).Reachable t) :
    M.Reachable t := by
  obtain ⟨s, as, hs, hr⟩ := h
  exact ⟨s, as, hs, hr.of_restrict⟩

end System
