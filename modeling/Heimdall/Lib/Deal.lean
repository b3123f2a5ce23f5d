import Mathlib.Data.List.Forall2
import Mathlib.Data.List.Nodup
import Mathlib.Data.List.Range

/-!
# Dealing in rounds

`deal round k` deals the rounds `round 0, ..., round (k - 1)` one after the other. Where a round
deals to nobody twice and to nobody who was left out of the round before, what has been dealt is
balanced at any time: who is still to get something is at most one behind anybody else
(`Deal.balance`). To deal to the same `n` places in every round is to deal to them in turn
(`Deal.turns_balanced`).
-/

/-- The first `k` rounds, one after the other. -/
def deal {α : Type*} (round : Nat → List α) (k : Nat) : List α := (List.range k).flatMap round

/-- The first `d` cards, dealt to `n` places in turn. -/
def turns (n d : Nat) : List Nat := (List.range d).map (· % n)

namespace Deal

variable {α : Type*} {round : Nat → List α} {k r : Nat} {a b : α} {p : List α}

@[simp] theorem deal_zero (round : Nat → List α) : deal round 0 = [] := rfl

theorem deal_succ (round : Nat → List α) (k : Nat) :
    deal round (k + 1) = deal round k ++ round k := by
  simp [deal, List.range_succ]

/-- The first round, and then the others. -/
theorem deal_succ' (round : Nat → List α) (k : Nat) :
    deal round (k + 1) = round 0 ++ deal (fun r => round (r + 1)) k := by
  simp [deal, List.range_succ_eq_map, List.flatMap_map]

/-- What holds of the rounds of two deals, card by card, holds of the deals. -/
theorem forall₂ {β : Type*} {R : α → β → Prop} {round' : Nat → List β}
    (h : ∀ r, List.Forall₂ R (round r) (round' r)) (k : Nat) :
    List.Forall₂ R (deal round k) (deal round' k) := by
  induction k with
  | zero => exact .nil
  | succ k ih =>
    rw [deal_succ, deal_succ]
    exact List.rel_append ih (h k)

/-- What has been dealt at some time is all, or whole rounds and a part of the next one. -/
theorem prefix_cases (h : p <+: deal round k) :
    p = deal round k ∨ ∃ r, r < k ∧ ∃ q, q <+: round r ∧ p = deal round r ++ q := by
  induction k with
  | zero => exact .inl (List.prefix_nil.1 h)
  | succ k ih =>
    rw [deal_succ] at h
    rcases Nat.le_total p.length (deal round k).length with hle | hle
    · right
      rcases ih (List.prefix_of_prefix_length_le h (List.prefix_append _ _) hle) with
        rfl | ⟨r, hr, q, hq, rfl⟩
      · exact ⟨k, Nat.lt_succ_self k, [], List.nil_prefix, (List.append_nil _).symm⟩
      · exact ⟨r, Nat.lt_succ_of_lt hr, q, hq, rfl⟩
    · right
      obtain ⟨q, rfl⟩ := List.prefix_of_prefix_length_le (List.prefix_append _ _) h hle
      refine ⟨k, Nat.lt_succ_self k, q, ?_, rfl⟩
      exact (List.prefix_append_right_inj _).1 h

section Count

variable [DecidableEq α]

/-- Nobody gets more than one a round. -/
theorem count_le (hnd : ∀ r, (round r).Nodup) (a : α) (k : Nat) : (deal round k).count a ≤ k := by
  induction k with
  | zero => exact Nat.le_refl 0
  | succ k ih =>
    have hone := List.nodup_iff_count_le_one.1 (hnd k) a
    rw [deal_succ, List.count_append]
    omega

/-- Who gets something in a round has got one in each round before. -/
theorem count_eq (hnd : ∀ r, (round r).Nodup) (hsub : ∀ r, round (r + 1) ⊆ round r)
    (ha : a ∈ round r) : (deal round r).count a = r := by
  induction r with
  | zero => rfl
  | succ r ih =>
    have ha' := hsub r ha
    rw [deal_succ, List.count_append, ih ha', List.count_eq_one_of_mem (hnd r) ha']

/-- Who is left out of a round gets nothing more. -/
theorem count_eq_of_not_mem (hsub : ∀ r, round (r + 1) ⊆ round r) (ha : a ∉ round r) (hk : r ≤ k) :
    (deal round k).count a = (deal round r).count a := by
  have hout : ∀ j, r ≤ j → a ∉ round j := by
    intro j hj
    induction j, hj using Nat.le_induction with
    | base => exact ha
    | succ j _ ih => exact fun h0 => ih (hsub j h0)
  induction k, hk using Nat.le_induction with
  | base => rfl
  | succ k hk ih =>
    rw [deal_succ, List.count_append, ih, List.count_eq_zero_of_not_mem (hout k hk), Nat.add_zero]

/-- **Balance.** At any time, who is still to get something is at most one behind anybody else. -/
theorem balance (hnd : ∀ r, (round r).Nodup) (hsub : ∀ r, round (r + 1) ⊆ round r)
    (h : p <+: deal round k) (ha : p.count a < (deal round k).count a) :
    p.count b ≤ p.count a + 1 := by
  rcases prefix_cases h with rfl | ⟨r, hr, q, hq, rfl⟩
  · omega
  · rw [List.count_append] at ha
    rw [List.count_append, List.count_append]
    by_cases hmem : a ∈ round r
    · have hcount := count_eq hnd hsub hmem
      have hle := count_le hnd b r
      have hone := List.nodup_iff_count_le_one.1 ((hnd r).sublist hq.sublist) b
      omega
    · -- the round leaves `a` out, so `a` has got all that it gets
      rw [count_eq_of_not_mem hsub hmem (Nat.le_of_lt hr)] at ha
      omega

end Count

section Turns

variable {n d i j : Nat}

/-- Whole rounds in turn. -/
theorem deal_range (n k : Nat) : deal (fun _ => List.range n) k = turns n (k * n) := by
  induction k with
  | zero =>
    rw [Nat.zero_mul]
    rfl
  | succ k ih =>
    have hround : ∀ i ∈ List.range n, (k * n + i) % n = id i := by
      intro i hi
      rw [Nat.mul_add_mod', Nat.mod_eq_of_lt (List.mem_range.1 hi)]
      rfl
    rw [deal_succ, ih, turns, turns, Nat.succ_mul, List.range_add, List.map_append, List.map_map]
    congr 1
    exact (List.map_id _).symm.trans (List.map_congr_left hround).symm

/-- **Turns are balanced.** -/
theorem turns_balanced (hi : i < n) : (turns n d).count j ≤ (turns n d).count i + 1 := by
  have hmem : i ∈ List.range n := List.mem_range.2 hi
  have hnd : ∀ r : Nat, ((fun _ => List.range n) r).Nodup := fun _ => List.nodup_range
  have hsub : ∀ r : Nat, (fun _ => List.range n) (r + 1) ⊆ (fun _ => List.range n) r :=
    fun _ => List.Subset.refl _
  have hprefix : turns n d <+: deal (fun _ => List.range n) (d + 1) := by
    have hle : d ≤ (d + 1) * n := by
      calc d ≤ d + 1 := Nat.le_succ d
        _ = (d + 1) * 1 := (Nat.mul_one _).symm
        _ ≤ (d + 1) * n := Nat.mul_le_mul_left _ (by omega)
    have htake : (List.range ((d + 1) * n)).take d = List.range d := by
      rw [List.take_range, Nat.min_eq_left hle]
    rw [deal_range, turns, turns, ← htake]
    exact (List.take_prefix d _).map _
  apply balance hnd hsub hprefix
  have hall : (deal (fun _ => List.range n) (d + 1)).count i = d + 1 := count_eq hnd hsub hmem
  have hle : (turns n d).count i ≤ (turns n d).length := List.count_le_length
  rw [turns, List.length_map, List.length_range] at hle
  rw [hall]
  exact Nat.lt_succ_of_le hle

end Turns

end Deal
