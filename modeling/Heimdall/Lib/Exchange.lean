import Mathlib.Algebra.Order.BigOperators.Group.List
import Mathlib.Algebra.Ring.Int.Defs
import Mathlib.Data.Int.Order.Basic

/-!
# Exchange sort, and the heads of its rounds

A round of exchange sort sweeps a candidate over the rest of the list and leaves the least element
in front (`sweep`). `sort` repeats this. `heads` lists the element that stands in front when each
round begins. The heads are the sorted list exactly when there was nothing to sort: their keys sum
up to at least the sum of all keys (`sum_le_heads`), with equality only on a list that is already
ascending (`heads_sum_eq_iff`). On any list the keys of the heads are the greatest keys so far
(`map_heads`): an exchange moves the greater element backwards, so no round hides one.
-/

namespace Exchange

variable {α : Type*} (key : α → Int)

/-- The candidate `x` is exchanged with every element of the list that is strictly less. -/
def sweep (x : α) : List α → α × List α
  | [] => (x, [])
  | y :: ys =>
    if key x > key y then ((sweep y ys).1, x :: (sweep y ys).2)
    else ((sweep x ys).1, y :: (sweep x ys).2)

/-- `k` rounds on a list. -/
def sort : Nat → List α → List α
  | 0, l => l
  | _ + 1, [] => []
  | k + 1, x :: l => (sweep key x l).1 :: sort k (sweep key x l).2

/-- The elements in front at the beginning of each of `k` rounds, and what is left after them. -/
def heads : Nat → List α → List α
  | 0, l => l
  | _ + 1, [] => []
  | k + 1, x :: l => x :: heads k (sweep key x l).2

/-- The keys ascend. -/
def Ascending (l : List α) : Prop := l.Pairwise fun a b => key a ≤ key b

instance (l : List α) : Decidable (Ascending key l) :=
  inferInstanceAs (Decidable (l.Pairwise fun a b => key a ≤ key b))

theorem sweep_perm (x : α) (l : List α) :
    ((sweep key x l).1 :: (sweep key x l).2).Perm (x :: l) := by
  induction l generalizing x with
  | nil => exact List.Perm.refl _
  | cons y ys ih =>
    simp only [sweep]
    split
    · exact (List.Perm.swap x _ _).trans ((ih y).cons x)
    · exact ((List.Perm.swap y _ _).trans ((ih x).cons y)).trans (List.Perm.swap x y ys)

theorem sweep_length (x : α) (l : List α) : (sweep key x l).2.length = l.length := by
  have h := (sweep_perm key x l).length_eq
  simpa using h

theorem sweep_le (x : α) (l : List α) : key (sweep key x l).1 ≤ key x := by
  induction l generalizing x with
  | nil => exact Int.le_refl _
  | cons y ys ih =>
    simp only [sweep]
    split
    · rename_i hxy
      exact Int.le_trans (ih y) (Int.le_of_lt hxy)
    · exact ih x

theorem sweep_le_mem (x : α) (l : List α) : ∀ y ∈ l, key (sweep key x l).1 ≤ key y := by
  induction l generalizing x with
  | nil => intro y hy; cases hy
  | cons z zs ih =>
    intro y hy
    have hz := sweep_le key z zs
    have hx := sweep_le key x zs
    simp only [sweep]
    split <;> rcases List.mem_cons.1 hy with rfl | hy
    · exact hz
    · exact ih z y hy
    · rename_i hxy
      exact Int.le_trans hx (Int.not_lt.1 hxy)
    · exact ih x y hy

variable {key} in
/-- A candidate that is least already is not exchanged. -/
theorem sweep_of_le {x : α} {l : List α} (h : ∀ y ∈ l, key x ≤ key y) : sweep key x l = (x, l) := by
  induction l with
  | nil => rfl
  | cons y ys ih =>
    have hy := h y List.mem_cons_self
    simp only [sweep, if_neg (Int.not_lt.2 hy), ih fun z hz => h z (List.mem_cons_of_mem y hz)]

theorem sort_perm : ∀ (k : Nat) (l : List α), (sort key k l).Perm l
  | 0, l => List.Perm.refl l
  | _ + 1, [] => List.Perm.refl []
  | k + 1, x :: l => ((sort_perm k _).cons _).trans (sweep_perm key x l)

variable {key} in
/-- On an ascending list no round changes anything. -/
theorem sort_of_ascending {k : Nat} {l : List α} (h : Ascending key l) : sort key k l = l := by
  induction k generalizing l with
  | zero => rfl
  | succ k ih =>
    cases l with
    | nil => rfl
    | cons x l =>
      obtain ⟨hx, hl⟩ := List.pairwise_cons.1 h
      simp only [sort, sweep_of_le hx, ih hl]

variable {key} in
theorem heads_of_ascending {k : Nat} {l : List α} (h : Ascending key l) : heads key k l = l := by
  induction k generalizing l with
  | zero => rfl
  | succ k ih =>
    cases l with
    | nil => rfl
    | cons x l =>
      obtain ⟨hx, hl⟩ := List.pairwise_cons.1 h
      simp only [heads, sweep_of_le hx, ih hl]

theorem sum_sweep (x : α) (l : List α) :
    key (sweep key x l).1 + ((sweep key x l).2.map key).sum = key x + (l.map key).sum := by
  have h := ((sweep_perm key x l).map key).sum_eq
  simpa using h

/-- The heads weigh at least as much as the list. -/
theorem sum_le_heads (k : Nat) (l : List α) : (l.map key).sum ≤ ((heads key k l).map key).sum := by
  induction k generalizing l with
  | zero => exact Int.le_refl _
  | succ k ih =>
    cases l with
    | nil => exact Int.le_refl _
    | cons x l =>
      have hs := sum_sweep key x l
      have hx := sweep_le key x l
      have := ih (sweep key x l).2
      simp only [heads, List.map_cons, List.sum_cons]
      omega

variable {key} in
/-- They weigh the same only when the list ascends already. -/
theorem heads_sum_eq_iff {k : Nat} {l : List α} (hk : l.length ≤ k + 1) :
    ((heads key k l).map key).sum = (l.map key).sum ↔ Ascending key l := by
  refine ⟨fun h => ?_, fun h => by rw [heads_of_ascending h]⟩
  induction k generalizing l with
  | zero =>
    match l, hk with
    | [], _ => exact List.Pairwise.nil
    | [x], _ => exact List.pairwise_singleton _ x
  | succ k ih =>
    cases l with
    | nil => exact List.Pairwise.nil
    | cons x l =>
      -- the round cannot have found a lesser element, so it exchanged nothing
      have hs := sum_sweep key x l
      have hx := sweep_le key x l
      have hle := sum_le_heads key k (sweep key x l).2
      simp only [heads, List.map_cons, List.sum_cons] at h
      have hmin : ∀ y ∈ l, key x ≤ key y := fun y hy => by
        have := sweep_le_mem key x l y hy
        omega
      rw [sweep_of_le hmin] at h
      refine List.pairwise_cons.2 ⟨hmin, ih (by simpa using hk) ?_⟩
      simpa using h

/-! ### The heads in terms of the list -/

/-- The greatest key so far at every element, `m` being the greatest before the list. -/
def peaks (m : Int) : List α → List Int
  | [] => []
  | x :: l => max m (key x) :: peaks (max m (key x)) l

/-- The greatest key so far at every element. -/
def heights : List α → List Int
  | [] => []
  | x :: l => key x :: peaks key (key x) l

variable {key} in
/-- The sweep keeps the peaks as long as the candidate is not one of them. -/
theorem peaks_sweep {m : Int} {x : α} {l : List α} (h : key x ≤ m) :
    peaks key m (sweep key x l).2 = peaks key m l := by
  induction l generalizing m x with
  | nil => rfl
  | cons y ys ih =>
    simp only [sweep]
    split
    · rename_i hxy
      have hx : max m (key x) = m := Int.max_eq_left h
      have hy : max m (key y) = m := Int.max_eq_left (by omega)
      rw [peaks, peaks, hx, hy, ih (by omega)]
    · rw [peaks, peaks, ih (by omega)]

/-- **The keys of the heads** are the greatest keys so far. -/
theorem map_heads {k : Nat} {l : List α} (hk : l.length ≤ k + 1) :
    (heads key k l).map key = heights key l := by
  induction k generalizing l with
  | zero =>
    match l, hk with
    | [], _ => rfl
    | [x], _ => rfl
  | succ k ih =>
    match l, hk with
    | [], _ => rfl
    | [x], _ =>
      rw [heads, List.map_cons, sweep, ih (Nat.zero_le _)]
      rfl
    | x :: y :: ys, hk =>
      have hlen := sweep_length key x (y :: ys)
      have hrec := ih (l := (sweep key x (y :: ys)).2) (by rw [hlen]; simpa using hk)
      rw [heads, List.map_cons, hrec, heights, peaks]
      -- the exchange leaves the greater of the two behind the candidate
      simp only [sweep]
      split
      · rename_i hxy
        rw [heights, peaks_sweep (Int.le_of_lt hxy), Int.max_eq_left (Int.le_of_lt hxy)]
      · rename_i hxy
        rw [heights, peaks_sweep (Int.not_lt.1 hxy), Int.max_eq_right (Int.not_lt.1 hxy)]

end Exchange
