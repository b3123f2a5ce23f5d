import Mathlib.Algebra.Order.Group.Multiset
import Mathlib.Data.Finset.Card
import Mathlib.Tactic.Abel
import Heimdall.Lib.System

/-!
# Handles and who owns them

A table of open handles with a limit. What is open is accounted for when it is what was open before
together with what the parts of a program own (`Ledger`): then nothing is owned twice, and the owned
handles count against the limit. A system whose steps open a handle, close one or pass it on keeps
the account (`Ledger.run`). What every step adds adds up over a run (`Run.gain`), and where every
step of some kind uses up part of a limit there are only so many of them (`Run.budget`).
-/

/-- The open handles are those of `base` and those that are owned, and not more than the limit. -/
structure Ledger {ι : Type*} (limit : Nat) (base table : Finset ι) (owned : Multiset ι) : Prop where
  table_eq : table.val = base.val + owned
  card_le : table.card ≤ limit

namespace Ledger

variable {ι : Type*} {limit : Nat} {base table table' : Finset ι} {owned owned' : Multiset ι}

theorem of_base (h : base.card ≤ limit) : Ledger limit base base 0 :=
  ⟨(add_zero _).symm, h⟩

theorem card_eq (h : Ledger limit base table owned) :
    table.card = base.card + Multiset.card owned := by
  rw [Finset.card_def, h.table_eq, Multiset.card_add]
  rfl

end Ledger

section Steps

variable {ι : Type*} [DecidableEq ι] {limit : Nat} {base table table' : Finset ι}
  {owned owned' : Multiset ι}

/-- A change of a table with room for `limit` handles, and of what is owned: a handle is opened, one
is closed, or none and what is owned stays. -/
inductive TableStep (limit : Nat) (table table' : Finset ι) (owned owned' : Multiset ι) : Prop
  | opened (a : ι) (ha : a ∉ table) (hroom : table.card < limit) (ht : table' = insert a table)
      (ho : owned' = {a} + owned)
  | closed (a : ι) (ht : table' = table.erase a) (ho : owned = {a} + owned')
  | passed (ht : table' = table) (ho : owned' = owned)

/-- **The step rule.** -/
theorem Ledger.step (h : Ledger limit base table owned)
    (hstep : TableStep limit table table' owned owned') : Ledger limit base table' owned' := by
  cases hstep with
  | opened a ha hroom ht ho =>
    subst ht ho
    refine ⟨?_, ?_⟩
    · rw [Finset.insert_val_of_notMem ha, h.table_eq, ← Multiset.singleton_add]
      abel
    · rw [Finset.card_insert_of_notMem ha]
      exact hroom
  | closed a ht ho =>
    subst ht ho
    refine ⟨?_, (Finset.card_erase_le).trans h.card_le⟩
    have hsplit : base.val + ({a} + owned') = a ::ₘ (base.val + owned') := by
      rw [← Multiset.singleton_add]
      abel
    rw [Finset.erase_val, h.table_eq, hsplit, Multiset.erase_cons_head]
  | passed ht ho =>
    subst ht ho
    exact h

/-- **The run rule.** -/
theorem Ledger.run {σ α : Type*} {M : System σ α} {table : σ → Finset ι} {owned : σ → Multiset ι}
    (hstep : ∀ s a t, M.step s a t → TableStep limit (table s) (table t) (owned s) (owned t))
    {s t : σ} {as : List α} (hrun : M.Run s as t) (h : Ledger limit base (table s) (owned s)) :
    Ledger limit base (table t) (owned t) :=
  hrun.invariant (fun s => Ledger limit base (table s) (owned s))
    (fun s a t hs ha => hs.step (hstep s a t ha)) h

end Steps

section Counting

variable {σ α : Type*} {M : System σ α} {f : σ → Nat} {w : α → Nat} {s t : σ} {as : List α}

/-- What each step adds adds up over a run. -/
theorem System.Run.gain (hstep : ∀ s a t, M.step s a t → f t = f s + w a) (h : M.Run s as t) :
    f t = f s + (as.map w).sum := by
  induction h with
  | nil => rfl
  | cons ha _ ih =>
    rw [ih, hstep _ _ _ ha, List.map_cons, List.sum_cons, Nat.add_assoc]

/-- **The budget rule.** Where a step of the kind `p` needs room for `c + r` and uses up `c` of it
for good, the steps of a run that are of the kind `p` use up `c` each, and leave `r`. -/
theorem System.Run.budget {I : σ → Prop} {p : α → Bool} {c r limit : Nat}
    (hinv : ∀ s a t, I s → M.step s a t → I t)
    (hstep : ∀ s a t, M.step s a t → f t = f s + w a) (hcost : ∀ a, p a = true → c ≤ w a)
    (hroom : ∀ s a t, I s → M.step s a t → p a = true → f s + c + r ≤ limit) (h : M.Run s as t)
    (hs : I s) (hpos : as.countP p ≠ 0) : f s + c * as.countP p + r ≤ limit := by
  induction h with
  | nil => exact absurd rfl hpos
  | @cons s t u a as ha _ ih =>
    have ht := hinv s a t hs ha
    have hgain := hstep s a t ha
    by_cases hp : p a = true
    · have hfirst := hroom s a t hs ha hp
      have hc := hcost a hp
      rw [List.countP_cons_of_pos hp]
      by_cases has : as.countP p = 0
      · rw [has]
        omega
      · have hrest := ih ht has
        rw [Nat.mul_add, Nat.mul_one]
        omega
    · rw [List.countP_cons_of_neg hp] at hpos ⊢
      have hrest := ih ht hpos
      omega

end Counting
