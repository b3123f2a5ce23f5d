import Mathlib.Logic.Function.Basic

/-!
# Mutexes that are held by who unlocks them

A mutex with the thread that holds it. To unlock it without holding it is a misuse. Where it is said
of every thread at every point whether it holds the mutex (`Guarded`), a thread that locks the free
mutex, one that unlocks it while it is said to hold it, and any step that does neither keep that
right.
-/

/-- `misused`: it has been unlocked by a thread that did not hold it. -/
structure Mutex (ρ : Type*) where
  owner : Option ρ
  misused : Bool

namespace Mutex

variable {ρ : Type*} {m : Mutex ρ} {r : ρ} {holds holds' : ρ → Bool}

def free : Mutex ρ := ⟨none, false⟩

def lock (m : Mutex ρ) (r : ρ) : Mutex ρ := { m with owner := some r }

/-- Whoever unlocks the mutex, it is free then. -/
def unlock [DecidableEq ρ] (m : Mutex ρ) (r : ρ) : Mutex ρ :=
  if m.owner = some r then { m with owner := none } else ⟨none, true⟩

/-- The mutex has not been misused, and is held by the thread that `holds` says. -/
structure Guarded (m : Mutex ρ) (holds : ρ → Bool) : Prop where
  misused_eq : m.misused = false
  owner_iff : ∀ r, m.owner = some r ↔ holds r = true

theorem guarded_free (h : ∀ r, holds r = false) : (free : Mutex ρ).Guarded holds := by
  refine ⟨rfl, fun r => ?_⟩
  rw [h r]
  exact iff_of_false nofun nofun

theorem Guarded.congr (h : m.Guarded holds) (heq : ∀ r, holds' r = holds r) :
    m.Guarded holds' := by
  refine ⟨h.misused_eq, fun r => ?_⟩
  rw [heq r]
  exact h.owner_iff r

theorem Guarded.lock (h : m.Guarded holds) (hfree : m.owner = none) (hr : holds' r = true)
    (hother : ∀ q, q ≠ r → holds' q = holds q) : (m.lock r).Guarded holds' := by
  refine ⟨h.misused_eq, fun q => ?_⟩
  by_cases hq : q = r
  · subst hq
    exact iff_of_true rfl hr
  · rw [hother q hq, ← h.owner_iff q, hfree]
    exact iff_of_false (fun heq => hq (Option.some.inj heq).symm) nofun

theorem Guarded.unlock [DecidableEq ρ] (h : m.Guarded holds) (hr : holds r = true)
    (hr' : holds' r = false) (hother : ∀ q, q ≠ r → holds' q = holds q) :
    (m.unlock r).Guarded holds' := by
  have howner : m.owner = some r := (h.owner_iff r).2 hr
  unfold Mutex.unlock
  rw [if_pos howner]
  refine ⟨h.misused_eq, fun q => iff_of_false nofun ?_⟩
  by_cases hq : q = r
  · subst hq
    rw [hr']
    exact nofun
  · rw [hother q hq, ← h.owner_iff q, howner]
    exact fun heq => hq (Option.some.inj heq).symm

/-- A thread that is said not to hold the mutex misuses it if it unlocks it. -/
theorem Guarded.misuse [DecidableEq ρ] (h : m.Guarded holds) (hr : holds r = false) :
    (m.unlock r).misused = true := by
  have howner : m.owner ≠ some r := by
    intro heq
    cases hr.symm.trans ((h.owner_iff r).1 heq)
  unfold Mutex.unlock
  rw [if_neg howner]

end Mutex
