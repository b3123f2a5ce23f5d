import Mathlib.Data.List.Infix

/-!
# Counting runs

A counter that goes up at the elements that `p` holds of and back to 0 at the others counts the run
at the end of what has been seen (`le_count_iff`). A scan that stops when the counter is `k` is
described without it: `Quiet` means that it does not stop before the last element, and that is so
exactly if there is no run of length `k` before the last element (`quiet_iff`).
-/

namespace Runs

variable {α : Type*} {p : α → Bool} {k n : Nat} {l : List α}

/-- The counter after one element. -/
def next (p : α → Bool) (n : Nat) (b : α) : Nat := if p b then n + 1 else 0

/-- The counter after a list. -/
def count (p : α → Bool) (n : Nat) (l : List α) : Nat := l.foldl (next p) n

/-- A run of length `k`. -/
def IsRun (p : α → Bool) (k : Nat) (w : List α) : Prop := w.length = k ∧ ∀ b ∈ w, p b

/-- The counter is not `k` before the last element. -/
def Quiet (p : α → Bool) (k : Nat) : Nat → List α → Prop
  | _, [] => True
  | n, b :: l => n ≠ k ∧ Quiet p k (next p n b) l

@[simp] theorem count_nil : count p n [] = n := rfl

theorem count_cons (b : α) : count p n (b :: l) = count p (next p n b) l := rfl

theorem count_concat (b : α) : count p n (l ++ [b]) = next p (count p n l) b := by
  unfold count
  rw [List.foldl_append]
  rfl

/-- The counter is at least `k` after a list that ends with a run of length `k`. -/
theorem le_count_iff : k ≤ count p 0 l ↔ ∃ w, w <:+ l ∧ IsRun p k w := by
  induction l using List.reverseRecOn generalizing k with
  | nil =>
    constructor
    · intro h
      exact ⟨[], List.suffix_refl [], (Nat.le_zero.1 h).symm,
        fun b hb => absurd hb List.not_mem_nil⟩
    · intro h
      obtain ⟨w, hw, hlen, -⟩ := h
      rw [List.suffix_nil.1 hw] at hlen
      exact hlen ▸ Nat.le_refl _
  | append_singleton l b ih =>
    rw [count_concat]
    unfold next
    constructor
    · intro h
      cases k with
      | zero =>
        exact ⟨[], List.nil_suffix, rfl, fun b hb => absurd hb List.not_mem_nil⟩
      | succ k =>
        split at h
        · rename_i hb
          obtain ⟨w, hw, hlen, hrun⟩ := ih.1 (Nat.le_of_succ_le_succ h)
          refine ⟨w ++ [b], List.suffix_concat_iff.2 (Or.inr ⟨w, rfl, hw⟩), ?_, ?_⟩
          · rw [List.length_append, hlen, List.length_singleton]
          · intro c hc
            rcases List.mem_append.1 hc with hc | hc
            · exact hrun c hc
            · rw [List.mem_singleton.1 hc]
              exact hb
        · cases h
    · intro h
      obtain ⟨w, hw, hlen, hrun⟩ := h
      rcases List.suffix_concat_iff.1 hw with rfl | ⟨v, rfl, hv⟩
      · rw [← hlen]
        exact Nat.zero_le _
      · have hb : p b := hrun b (List.mem_append_right v (List.mem_singleton_self b))
        have hk : v.length ≤ count p 0 l :=
          ih.2 ⟨v, hv, rfl, fun d hd => hrun d (List.mem_append_left _ hd)⟩
        rw [if_pos hb, ← hlen, List.length_append, List.length_singleton]
        exact Nat.succ_le_succ hk

/-- The counter goes through every value. -/
theorem exists_prefix_of_le (h : k ≤ count p 0 l) : ∃ q, q <+: l ∧ count p 0 q = k := by
  induction l using List.reverseRecOn with
  | nil => exact ⟨[], List.prefix_refl [], (Nat.le_zero.1 h).symm⟩
  | append_singleton l b ih =>
    by_cases hlt : k ≤ count p 0 l
    · obtain ⟨q, hq, hcount⟩ := ih hlt
      exact ⟨q, hq.trans (List.prefix_append l [b]), hcount⟩
    · refine ⟨l ++ [b], List.prefix_refl _, ?_⟩
      rw [count_concat] at h ⊢
      unfold next at h ⊢
      split
      · rename_i hb
        rw [if_pos hb] at h
        omega
      · rename_i hb
        rw [if_neg hb] at h
        omega

theorem quiet_iff_initial :
    Quiet p k n l ↔ ∀ q, q <+: l → q ≠ l → count p n q ≠ k := by
  induction l generalizing n with
  | nil =>
    constructor
    · intro _ q hq hne
      exact absurd (List.prefix_nil.1 hq) hne
    · intro _
      exact trivial
  | cons b l ih =>
    rw [Quiet, ih]
    constructor
    · intro h q hq hne
      rcases List.prefix_cons_iff.1 hq with rfl | ⟨r, rfl, hr⟩
      · exact h.1
      · exact h.2 r hr fun h0 => hne (by rw [h0])
    · intro h
      refine ⟨h [] List.nil_prefix (List.cons_ne_nil b l).symm, ?_⟩
      intro q hq hne
      exact h (b :: q) (List.cons_prefix_cons.2 ⟨rfl, hq⟩) fun h0 => hne (List.cons.inj h0).2

/-- **When the scan does not stop early**: there is no run of length `k` before the last element. -/
theorem quiet_iff (hk : 0 < k) :
    Quiet p k 0 l ↔ ∀ w, IsRun p k w → ¬ w <:+: l.dropLast := by
  rw [quiet_iff_initial]
  constructor
  · intro h w hw hinfix
    obtain ⟨s, t, hst⟩ := hinfix
    obtain ⟨q, hq, hcount⟩ := exists_prefix_of_le (le_count_iff.2 ⟨w, List.suffix_append s w, hw⟩)
    have hinitial : q <+: l.dropLast := hst ▸ hq.trans (List.prefix_append (s ++ w) t)
    refine h q (hinitial.trans (List.dropLast_prefix l)) ?_ hcount
    intro hql
    have hlen := hinitial.length_le
    rw [hql, List.length_dropLast] at hlen
    have hl : l = [] := List.length_eq_zero_iff.1 (by omega)
    rw [hql, hl, count_nil] at hcount
    omega
  · intro h q hq hne hcount
    obtain ⟨w, hw, hrun⟩ := le_count_iff.1 hcount.ge
    obtain ⟨t, rfl⟩ := hq
    have ht : t ≠ [] := by
      intro h0
      rw [h0, List.append_nil] at hne
      exact hne rfl
    apply h w hrun
    rw [List.dropLast_append_of_ne_nil ht]
    exact hw.isInfix.trans (List.prefix_append q t.dropLast).isInfix

theorem count_le (hn : n ≤ k) (h : Quiet p k n l) : count p n l ≤ k := by
  induction l generalizing n with
  | nil => exact hn
  | cons b l ih =>
    refine ih ?_ h.2
    have hne := h.1
    unfold next
    split <;> omega

/-- A scan stops somewhere, or nowhere. -/
theorem stops_or (p : α → Bool) (k n : Nat) (l : List α) :
    (Quiet p k n l ∧ count p n l ≠ k) ∨
      ∃ l₁ l₂, l = l₁ ++ l₂ ∧ Quiet p k n l₁ ∧ count p n l₁ = k := by
  induction l generalizing n with
  | nil =>
    by_cases hn : n = k
    · exact Or.inr ⟨[], [], rfl, trivial, hn⟩
    · exact Or.inl ⟨trivial, hn⟩
  | cons b l ih =>
    by_cases hn : n = k
    · exact Or.inr ⟨[], b :: l, rfl, trivial, hn⟩
    · rcases ih (next p n b) with ⟨hquiet, hcount⟩ | ⟨l₁, l₂, rfl, hquiet, hcount⟩
      · exact Or.inl ⟨⟨hn, hquiet⟩, hcount⟩
      · exact Or.inr ⟨b :: l₁, l₂, rfl, ⟨hn, hquiet⟩, hcount⟩

end Runs
