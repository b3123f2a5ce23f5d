import Mathlib.Data.List.Basic

/-!
# Entries with keys

`last k es` is the value of the last entry of `es` with the key `k`. A state that is changed by one
entry after the other holds in a field that only the entries with one key set what the last of them
says (`foldl_get`).
-/

namespace Keyed

variable {κ β : Type*} [DecidableEq κ]

/-- The value of the last entry with the key. -/
def last (k : κ) : List (κ × β) → Option β
  | [] => none
  | e :: es => (last k es).or (if e.1 = k then some e.2 else none)

variable {k : κ} {v : β} {es : List (κ × β)}

@[simp] theorem last_nil (k : κ) : last k ([] : List (κ × β)) = none := rfl

theorem last_append (k : κ) (es es' : List (κ × β)) :
    last k (es ++ es') = (last k es').or (last k es) := by
  induction es with
  | nil => exact (Option.or_none).symm
  | cons e es ih => rw [List.cons_append, last, last, ih, Option.or_assoc]

theorem last_eq_none_iff : last k es = none ↔ ∀ e ∈ es, e.1 ≠ k := by
  induction es with
  | nil => exact iff_of_true rfl fun e he => absurd he List.not_mem_nil
  | cons e es ih =>
    rw [last, Option.or_eq_none_iff, ih, List.forall_mem_cons, and_comm]
    refine and_congr_left fun _ => ?_
    by_cases he : e.1 = k <;> simp [he]

/-- It is the value of an entry that no other entry with the key follows. -/
theorem last_eq_some_iff :
    last k es = some v ↔ ∃ pre post, es = pre ++ (k, v) :: post ∧ ∀ e ∈ post, e.1 ≠ k := by
  constructor
  · intro h
    induction es with
    | nil => cases h
    | cons e es ih =>
      rw [last] at h
      cases hlast : last k es with
      | some w =>
        rw [hlast] at h
        obtain ⟨pre, post, rfl, hpost⟩ := ih (hlast.trans h)
        exact ⟨e :: pre, post, rfl, hpost⟩
      | none =>
        rw [hlast, Option.none_or] at h
        split at h
        · rename_i hk
          cases h
          exact ⟨[], es, by rw [← hk]; rfl, last_eq_none_iff.1 hlast⟩
        · cases h
  · intro h
    obtain ⟨pre, post, rfl, hpost⟩ := h
    rw [last_append, last, last_eq_none_iff.2 hpost]
    simp

theorem mem_of_last (h : last k es = some v) : (k, v) ∈ es := by
  obtain ⟨pre, post, rfl, -⟩ := last_eq_some_iff.1 h
  exact List.mem_append_right pre List.mem_cons_self

theorem exists_last_iff : (∃ v, last k es = some v) ↔ ∃ e ∈ es, e.1 = k := by
  constructor
  · rintro ⟨v, h⟩
    exact ⟨(k, v), mem_of_last h, rfl⟩
  · rintro ⟨e, he, hk⟩
    cases hlast : last k es with
    | some v => exact ⟨v, rfl⟩
    | none => exact absurd hk (last_eq_none_iff.1 hlast e he)

/-- **The last entry wins.** What the entries do to a field that is set by those with one key. -/
theorem foldl_get {σ γ : Type*} {step : σ → κ × β → σ} {get : σ → γ} (read : β → γ)
    (hstep : ∀ s e, get (step s e) = if e.1 = k then read e.2 else get s) (s : σ)
    (es : List (κ × β)) :
    get (es.foldl step s) = ((last k es).map read).getD (get s) := by
  induction es generalizing s with
  | nil => rfl
  | cons e es ih =>
    rw [List.foldl_cons, ih, hstep, last]
    cases last k es with
    | some w => rfl
    | none => split <;> rfl

end Keyed
