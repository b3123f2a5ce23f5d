import Mathlib.Logic.Relation
import Mathlib.Logic.Function.Basic
import Heimdall.Lib.System

/-!
# Sections under a semaphore

A program whose threads share a memory. They touch it in sections only, each of which takes a
semaphore, goes through small steps with locals of its own, and gives the semaphore back with a
result. Everything else is outside of the sections.

`small` has the small steps of all threads interleaved, `atomic` has each section in one step. With
a semaphore that starts at 1, at most one thread is inside (`Alone`), every run of `small` is one of
`atomic` (`Run.atomic`), and every run of `atomic` is one of `small` (`Run.small`).
-/

/-- A shared memory `σ`, the state `γ` of everything else, its events `ε`, and sections `ι` with
locals `κ` and results `ρ`. `ready` says when the thread of a section may begin it, `commit` what
its result does outside. -/
structure Sections (σ γ ε ι κ ρ τ : Type*) where
  init : σ → γ → Prop
  thread : ι → τ
  start : ι → κ
  inner : κ × σ → κ × σ → Prop
  result : κ → ρ → Prop
  outside : γ → ε → γ → Prop
  ready : γ → ι → Prop
  commit : γ → ι → ρ → γ → Prop

namespace Sections

variable {σ γ ε ι κ ρ τ : Type*}

/-- `value` is that of the semaphore, `inside` says which section a thread is in and how far. -/
structure State (σ γ ι κ τ : Type*) where
  memory : σ
  rest : γ
  value : Nat
  inside : τ → Option (ι × κ)

inductive Event (ε ι ρ : Type*)
  | outside (e : ε)
  | wait (i : ι)
  | inner (i : ι)
  | post (i : ι) (r : ρ)

inductive Action (ε ι ρ : Type*)
  | outside (e : ε)
  | whole (i : ι) (r : ρ)

/-- A section counts when the semaphore is given back. -/
def Event.action : Event ε ι ρ → Option (Action ε ι ρ)
  | .outside e => some (.outside e)
  | .wait _ => none
  | .inner _ => none
  | .post i r => some (.whole i r)

section Program

variable [DecidableEq τ] (P : Sections σ γ ε ι κ ρ τ)

inductive Step : State σ γ ι κ τ → Event ε ι ρ → State σ γ ι κ τ → Prop
  | outside {s : State σ γ ι κ τ} {e : ε} {c : γ} (h : P.outside s.rest e c) :
      Step s (.outside e) { s with rest := c }
  | wait {s : State σ γ ι κ τ} {i : ι} {v : Nat} (hr : P.ready s.rest i)
      (hi : s.inside (P.thread i) = none) (hv : s.value = v + 1) :
      Step s (.wait i) { s with
        value := v
        inside := Function.update s.inside (P.thread i) (some (i, P.start i)) }
  | inner {s : State σ γ ι κ τ} {i : ι} {k k' : κ} {m : σ}
      (hi : s.inside (P.thread i) = some (i, k)) (h : P.inner (k, s.memory) (k', m)) :
      Step s (.inner i) { s with
        memory := m
        inside := Function.update s.inside (P.thread i) (some (i, k')) }
  | post {s : State σ γ ι κ τ} {i : ι} {k : κ} {r : ρ} {c : γ}
      (hi : s.inside (P.thread i) = some (i, k)) (hk : P.result k r)
      (hc : P.commit s.rest i r c) :
      Step s (.post i r) { s with
        rest := c
        value := s.value + 1
        inside := Function.update s.inside (P.thread i) none }

/-- The small steps of all threads. -/
def small : System (State σ γ ι κ τ) (Event ε ι ρ) where
  init s := P.init s.memory s.rest ∧ s.value = 1 ∧ ∀ t, s.inside t = none
  step := P.Step

/-- What a section does to the memory, from its first to its last step. -/
def Effect (i : ι) (r : ρ) (m m' : σ) : Prop :=
  ∃ k, Relation.ReflTransGen P.inner (P.start i, m) (k, m') ∧ P.result k r

inductive AtomicStep : σ × γ → Action ε ι ρ → σ × γ → Prop
  | outside {m : σ} {c c' : γ} {e : ε} (h : P.outside c e c') :
      AtomicStep (m, c) (.outside e) (m, c')
  | whole {m m' : σ} {c c' : γ} {i : ι} {r : ρ} (h : P.Effect i r m m')
      (hc : P.commit c i r c') : AtomicStep (m, c) (.whole i r) (m', c')

/-- Every section in one step. -/
def atomic : System (σ × γ) (Action ε ι ρ) where
  init s := P.init s.1 s.2
  step := P.AtomicStep

/-- At most one thread is inside, the semaphore says whether one is, and `m` is the memory that it
found, or else the memory as it is. -/
inductive Alone (s : State σ γ ι κ τ) (m : σ) : Prop
  | out (hv : s.value = 1) (hi : ∀ t, s.inside t = none) (hm : s.memory = m)
  | inside (hv : s.value = 0) (i : ι) (k : κ) (hi : s.inside (P.thread i) = some (i, k))
      (ho : ∀ t, t ≠ P.thread i → s.inside t = none)
      (hm : Relation.ReflTransGen P.inner (P.start i, m) (k, s.memory))

end Program

section Runs

variable [DecidableEq τ] {P : Sections σ γ ε ι κ ρ τ} {s t : State σ γ ι κ τ} {m : σ}

theorem alone_init (h : P.small.init s) : P.Alone s s.memory := .out h.2.1 h.2.2 rfl

/-- The thread that is inside is the one that is known to be. -/
theorem Alone.inside_eq {i : ι} {k : κ} (h : P.Alone s m)
    (hi : s.inside (P.thread i) = some (i, k)) :
    s.value = 0 ∧ (∀ u, u ≠ P.thread i → s.inside u = none) ∧
      Relation.ReflTransGen P.inner (P.start i, m) (k, s.memory) := by
  cases h with
  | out _ hnone => cases (hnone _).symm.trans hi
  | inside hv j l hj ho hm =>
    have hthread : P.thread i = P.thread j := by
      by_contra hne
      cases (ho _ hne).symm.trans hi
    rw [hthread, hj] at hi
    cases hi
    exact ⟨hv, ho, hm⟩

/-- **Mutual exclusion.** -/
theorem Alone.unique {u v : τ} (h : P.Alone s m) (hu : s.inside u ≠ none)
    (hv : s.inside v ≠ none) : u = v := by
  cases h with
  | out _ hnone => exact absurd (hnone u) hu
  | inside _ i _ _ ho =>
    have hthread : ∀ w, s.inside w ≠ none → w = P.thread i := fun w hw => by
      by_contra hne
      exact hw (ho w hne)
    rw [hthread u hu, hthread v hv]

/-- **A small step** is one of the atomic program, or none. -/
theorem Alone.step {e : Event ε ι ρ} (h : P.Alone s m) (hstep : P.Step s e t) :
    ∃ m', P.Alone t m' ∧ P.atomic.Run (m, s.rest) e.action.toList (m', t.rest) := by
  cases hstep with
  | outside ho =>
    refine ⟨m, ?_, .single (.outside ho)⟩
    cases h with
    | out hv hi hm => exact .out hv hi hm
    | inside hv i k hi hother hm => exact .inside hv i k hi hother hm
  | @wait i v hr hi hv =>
    refine ⟨m, ?_, .nil _⟩
    cases h with
    | inside hv' => omega
    | out hv' hnone hm =>
      refine .inside (Nat.succ.inj (hv.symm.trans hv')) i (P.start i) (Function.update_self ..) ?_
        ?_
      · intro u hu
        exact (Function.update_of_ne hu ..).trans (hnone u)
      · rw [hm]
  | @inner i k k' m' hi hk =>
    obtain ⟨hv, hother, hm⟩ := h.inside_eq hi
    refine ⟨m, .inside hv i k' (Function.update_self ..) ?_ (hm.tail hk), .nil _⟩
    intro u hu
    exact (Function.update_of_ne hu ..).trans (hother u hu)
  | @post i k r c hi hk hc =>
    obtain ⟨hv, hother, hm⟩ := h.inside_eq hi
    refine ⟨s.memory, .out (congrArg Nat.succ hv) ?_ rfl, .single (.whole ⟨k, hm, hk⟩ hc)⟩
    intro u
    by_cases hu : u = P.thread i
    · subst hu
      exact Function.update_self ..
    · exact (Function.update_of_ne hu ..).trans (hother u hu)

/-- **Every run of the small steps is one of the atomic program.** -/
theorem Alone.run {es : List (Event ε ι ρ)} (h : P.Alone s m) (hrun : P.small.Run s es t) :
    ∃ m', P.Alone t m' ∧ P.atomic.Run (m, s.rest) (es.filterMap Event.action) (m', t.rest) := by
  induction hrun generalizing m with
  | nil => exact ⟨m, h, .nil _⟩
  | @cons s₁ s₂ s₃ e es hstep _ ih =>
    obtain ⟨m₁, h₁, hfirst⟩ := h.step hstep
    obtain ⟨m₂, h₂, hothers⟩ := ih h₁
    refine ⟨m₂, h₂, ?_⟩
    have hlist : (e :: es).filterMap Event.action =
        e.action.toList ++ es.filterMap Event.action := by
      cases he : e.action <;> simp [he]
    rw [hlist]
    exact hfirst.append hothers

theorem alone_of_reachable (h : P.small.Reachable s) :
    ∃ m, P.Alone s m ∧ P.atomic.Reachable (m, s.rest) := by
  obtain ⟨s₀, es, hs₀, hrun⟩ := h
  obtain ⟨m, halone, hatomic⟩ := (alone_init hs₀).run hrun
  exact ⟨m, halone, (s₀.memory, s₀.rest), _, hs₀.1, hatomic⟩

/-! ## No run is lost -/

/-- Nobody is inside. -/
def idle (τ : Type*) (m : σ) (c : γ) : State σ γ ι κ τ := ⟨m, c, 1, fun _ => none⟩

variable (P) in
/-- Only the thread of `i` is inside. -/
def within (m : σ) (c : γ) (i : ι) (k : κ) : State σ γ ι κ τ :=
  ⟨m, c, 0, Function.update (fun _ => none) (P.thread i) (some (i, k))⟩

theorem within_inside (m : σ) (c : γ) (i : ι) (k : κ) :
    (P.within m c i k).inside (P.thread i) = some (i, k) := by
  simp only [within, Function.update_self]

variable (P) in
/-- The steps of a section, one after the other. -/
theorem run_within (c : γ) {i : ι} {k k' : κ} {m m' : σ}
    (h : Relation.ReflTransGen P.inner (k, m) (k', m')) :
    ∃ es, es.filterMap Event.action = [] ∧
      P.small.Run (P.within m c i k) es (P.within m' c i k') := by
  obtain ⟨q, hq⟩ : ∃ q, q = (k', m') := ⟨_, rfl⟩
  rw [← hq] at h
  induction h generalizing k' m' with
  | refl =>
    cases hq
    exact ⟨[], rfl, .nil _⟩
  | @tail p q _ hstep ih =>
    subst hq
    obtain ⟨es, hes, hrun⟩ := @ih p.1 p.2 rfl
    have hlast : P.small.step (P.within p.2 c i p.1) (.inner i) (P.within m' c i k') := by
      have h0 := Step.inner (within_inside p.2 c i p.1) hstep
      rwa [within, Function.update_idem] at h0
    refine ⟨es ++ [.inner i], ?_, hrun.append (.single hlast)⟩
    rw [List.filterMap_append, hes]
    rfl

/-- **Every run of the atomic program is one of the small steps**, where a section that has a result
may begin. -/
theorem run_atomic (hready : ∀ c i r c', P.commit c i r c' → P.ready c i)
    {as : List (Action ε ι ρ)} {p q : σ × γ} (h : P.atomic.Run p as q) :
    ∃ es, es.filterMap Event.action = as ∧
      P.small.Run (idle τ p.1 p.2) es (idle τ q.1 q.2) := by
  induction h with
  | nil p => exact ⟨[], rfl, .nil _⟩
  | @cons p q u a as hstep _ ih =>
    obtain ⟨es, hes, hrun⟩ := ih
    cases hstep with
    | @outside m c c' e ho =>
      refine ⟨.outside e :: es, ?_, .cons (.outside ho) hrun⟩
      rw [List.filterMap_cons, hes]
      rfl
    | @whole m m' c c' i r heff hc =>
      obtain ⟨k, hinner, hk⟩ := heff
      have hwait : P.Step (idle τ m c) (.wait i) (P.within m c i (P.start i)) :=
        .wait (hready c i r c' hc) rfl rfl
      obtain ⟨es', hes', hrun'⟩ := P.run_within c hinner
      have hpost : P.small.step (P.within m' c i k) (.post i r) (idle τ m' c') := by
        have h0 := Step.post (within_inside m' c i k) hk hc
        rwa [within, Function.update_idem, Function.update_eq_self] at h0
      refine ⟨.wait i :: (es' ++ [.post i r] ++ es), ?_, ?_⟩
      · rw [List.filterMap_cons_none rfl, List.filterMap_append, List.filterMap_append, hes', hes]
        rfl
      · exact .cons hwait ((hrun'.append (.single hpost)).append hrun)

end Runs

end Sections
