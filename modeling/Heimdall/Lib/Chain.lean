import Mathlib.Data.List.Nodup
import Mathlib.Logic.Function.Basic

/-!
# Chains of links

`Chain next p xs q`: following `next` from `p` one meets `xs`, in this order, and then stands at
`q`. A chain that ends at `none` is a linked list. What a chain meets does not depend on the links
of anything else (`Chain.congr`, `Chain.update`); so the list operations are a new link at the end
(`Chain.snoc`), a link that is cut (`Chain.cut`) and one that is set past an element
(`Chain.unlink`).
-/

/-- Following `next` from `p` one meets `xs` and then stands at `q`. -/
def Chain {α : Type*} (next : α → Option α) : Option α → List α → Option α → Prop
  | p, [], q => p = q
  | p, x :: xs, q => p = some x ∧ Chain next (next x) xs q

namespace Chain

variable {α : Type*} {next next' : α → Option α} {p q r : Option α} {xs ys : List α} {a b : α}

@[simp] theorem nil_iff : Chain next p [] q ↔ p = q := Iff.rfl

@[simp] theorem cons_iff : Chain next p (a :: xs) q ↔ p = some a ∧ Chain next (next a) xs q :=
  Iff.rfl

theorem append_iff :
    Chain next p (xs ++ ys) r ↔ ∃ q, Chain next p xs q ∧ Chain next q ys r := by
  induction xs generalizing p with
  | nil => simp
  | cons x xs ih => simp [ih, and_assoc]

/-- Only the links of what is met count. -/
theorem congr (h : Chain next p xs q) (heq : ∀ x ∈ xs, next' x = next x) :
    Chain next' p xs q := by
  induction xs generalizing p with
  | nil => exact h
  | cons x xs ih =>
    obtain ⟨hp, hxs⟩ := h
    refine ⟨hp, ?_⟩
    rw [heq x List.mem_cons_self]
    apply ih hxs
    intro y hy
    exact heq y (List.mem_cons_of_mem x hy)

/-- The first thing met, or the end. -/
theorem head_eq (h : Chain next p xs q) : p = xs.head?.or q := by
  cases xs with
  | nil => exact h
  | cons x xs => exact h.1

theorem nil_of_none (h : Chain next none xs q) : xs = [] := by
  cases xs with
  | nil => rfl
  | cons x xs => cases h.1

section Update

variable [DecidableEq α]

/-- A link that is set elsewhere. -/
theorem update (h : Chain next p xs q) (ha : a ∉ xs) (v : Option α) :
    Chain (Function.update next a v) p xs q := by
  apply h.congr
  intro x hx
  apply Function.update_of_ne
  rintro rfl
  exact ha hx

/-- The last link is set to `q`. -/
theorem set_last (h : Chain next p (xs ++ [a]) r) (ha : a ∉ xs) (q : Option α) :
    Chain (Function.update next a q) p (xs ++ [a]) q := by
  obtain ⟨p', hxs, hp', -⟩ := append_iff.1 h
  refine append_iff.2 ⟨p', hxs.update ha q, hp', ?_⟩
  exact Function.update_self ..

/-- **A new element at the end** of a linked list, whose last link is set to it. -/
theorem snoc (h : Chain next p (xs ++ [a]) none) (ha : a ∉ xs) (hb : b ∉ xs ++ [a])
    (hnext : next b = none) :
    Chain (Function.update next a (some b)) p (xs ++ [a] ++ [b]) none := by
  refine append_iff.2 ⟨some b, h.set_last ha (some b), rfl, ?_⟩
  have hba : b ≠ a := by
    rintro rfl
    exact hb (List.mem_append_right _ (List.mem_singleton.2 rfl))
  exact (Function.update_of_ne hba ..).trans hnext

/-- **A linked list that is cut** behind `a`. -/
theorem cut (h : Chain next p (xs ++ a :: ys) none) (ha : a ∉ xs) :
    Chain (Function.update next a none) p (xs ++ [a]) none := by
  obtain ⟨p', hxs, hp', -⟩ := append_iff.1 h
  exact set_last (append_iff.2 ⟨p', hxs, hp', rfl⟩) ha none

/-- **An element that is taken out**: the link of the one before it is set past it. -/
theorem unlink (h : Chain next p (xs ++ a :: b :: ys) none) (hxs : a ∉ xs) (hys : a ∉ ys) :
    Chain (Function.update next a (next b)) p (xs ++ a :: ys) none := by
  obtain ⟨p', hbefore, rfl, -, hafter⟩ := append_iff.1 h
  refine append_iff.2 ⟨some a, hbefore.update hxs (next b), rfl, ?_⟩
  rw [Function.update_self]
  exact hafter.update hys (next b)

end Update

end Chain
