import Mathlib.Data.List.Perm.Subperm
import Mathlib.Data.List.Nodup
import Mathlib.Data.List.Range
import Mathlib.Data.Nat.ModEq

/-!
# Cyclic walks

`window p n` lists the `n` residues `p, p + 1, ...` modulo `n`. It is a rearrangement of the indices
below `n`, whatever `p` is (`window_perm`). `skewed h p n` is the same walk with `h` in the place of
its first residue: what it meets is still a rearrangement only when `h` carries what that residue
carries (`skewed_map_perm_iff`).
-/

namespace Cyclic

/-- The residues of `p, ..., p + n - 1` modulo `n`. -/
def window (p n : Nat) : List Nat := (List.range n).map fun k => (p + k) % n

/-- The walk that starts at `h` and goes on with the residues of `p + 1, ..., p + n - 1`. -/
def skewed (h p n : Nat) : List Nat := h :: (List.range (n - 1)).map fun k => (p + 1 + k) % n

@[simp] theorem length_window (p n : Nat) : (window p n).length = n := by simp [window]

theorem mod_add_inj {p n j k : Nat} (hj : j < n) (hk : k < n) (h : (p + j) % n = (p + k) % n) :
    j = k := by
  have h' : j % n = k % n := Nat.ModEq.add_left_cancel rfl h
  rwa [Nat.mod_eq_of_lt hj, Nat.mod_eq_of_lt hk] at h'

theorem window_nodup (p n : Nat) : (window p n).Nodup := by
  refine List.Nodup.map_on ?_ List.nodup_range
  intro j hj k hk h
  exact mod_add_inj (List.mem_range.1 hj) (List.mem_range.1 hk) h

theorem window_perm (p n : Nat) : (window p n).Perm (List.range n) := by
  refine (List.subperm_of_subset (window_nodup p n) ?_).perm_of_length_le (by simp)
  intro i hi
  obtain ⟨k, hk, rfl⟩ := List.mem_map.1 hi
  exact List.mem_range.2 (Nat.mod_lt _ (Nat.zero_lt_of_lt (List.mem_range.1 hk)))

theorem window_succ {n : Nat} (hn : 0 < n) (p : Nat) :
    window p n = p % n :: (List.range (n - 1)).map fun k => (p + 1 + k) % n := by
  obtain ⟨m, rfl⟩ : ∃ m, n = m + 1 := ⟨n - 1, by omega⟩
  simp only [window, List.range_succ_eq_map, List.map_cons, List.map_map, Nat.add_zero,
    Nat.add_sub_cancel]
  refine congrArg _ (List.map_congr_left fun k _ => ?_)
  simp only [Function.comp, Nat.succ_eq_add_one]
  congr 1
  omega

/-- Every index below `n` is met by the walk. -/
theorem exists_window {i n : Nat} (hi : i < n) (p : Nat) : ∃ k < n, (p + k) % n = i := by
  have h : i ∈ window p n := (window_perm p n).mem_iff.2 (List.mem_range.2 hi)
  obtain ⟨k, hk, he⟩ := List.mem_map.1 h
  exact ⟨k, List.mem_range.1 hk, he⟩

/-- What a walk with a foreign first element meets is a rearrangement of what the indices carry
exactly when that element carries what the residue carries that it stands for. -/
theorem skewed_map_perm_iff {β : Type*} {f : Nat → β} {h p n : Nat} (hn : 0 < n) :
    ((skewed h p n).map f).Perm ((List.range n).map f) ↔ f h = f (p % n) := by
  have hw := (window_perm p n).map f
  rw [window_succ hn, List.map_cons] at hw
  rw [skewed, List.map_cons]
  constructor
  · intro hs
    have := hs.trans hw.symm
    exact List.singleton_perm_singleton.1 ((List.perm_append_right_iff _).1 this)
  · intro he
    rw [he]
    exact hw

end Cyclic
