import Mathlib.Algebra.GroupWithZero.Nat
import Mathlib.Logic.Function.Basic

/-!
# Numbers in bytes, and layouts

Memory maps addresses to bytes. A number of `k` bytes is stored with its least significant byte
first, and what is loaded from where it was stored is the number again (`load_store`). A layout says
where the cells of a block of memory lie, no two of them with a byte in common: then a store in one
cell changes what that cell holds, and no other (`Layout.view_store`).
-/

namespace Bytes

abbrev Memory := Nat → UInt8

/-- The number in the `k` bytes from `a` on. -/
def load (m : Memory) : Nat → Nat → Nat
  | _, 0 => 0
  | a, k + 1 => (m a).toNat + 256 * load m (a + 1) k

/-- The number `v` goes to the `k` bytes from `a` on. -/
def store : Memory → Nat → Nat → Nat → Memory
  | m, _, 0, _ => m
  | m, a, k + 1, v => store (Function.update m a (UInt8.ofNat v)) (a + 1) k (v / 256)

/-- An integer as a number of `k` bytes, in two's complement. -/
def unsigned (k : Nat) (v : Int) : Nat := (v % (256 ^ k : Nat)).toNat

def signed (k : Nat) (x : Nat) : Int := (x : Int).bmod (256 ^ k)

section Store

variable {m m' : Memory} {a b k l v : Nat}

theorem load_congr (h : ∀ i, a ≤ i → i < a + k → m i = m' i) : load m a k = load m' a k := by
  induction k generalizing a with
  | zero => rfl
  | succ k ih =>
    unfold load
    rw [h a (Nat.le_refl a) (by omega), ih fun i hi hlt => h i (by omega) (by omega)]

theorem load_lt (m : Memory) (a k : Nat) : load m a k < 256 ^ k := by
  induction k generalizing a with
  | zero => exact Nat.one_pos
  | succ k ih =>
    have hbyte := (m a).toNat_lt
    have hrest := ih (a + 1)
    unfold load
    rw [Nat.pow_succ]
    omega

/-- What is not stored to stays. -/
theorem store_of_outside (h : b < a ∨ a + k ≤ b) : store m a k v b = m b := by
  induction k generalizing m a v with
  | zero => rfl
  | succ k ih =>
    unfold store
    rw [ih (by omega), Function.update_of_ne (by omega)]

theorem load_store_apart (h : a + k ≤ b ∨ b + l ≤ a) :
    load (store m a k v) b l = load m b l :=
  load_congr fun i hi hlt => store_of_outside (by omega)

theorem load_store (hv : v < 256 ^ k) : load (store m a k v) a k = v := by
  induction k generalizing m a v with
  | zero =>
    rw [Nat.pow_zero] at hv
    unfold load
    omega
  | succ k ih =>
    have hdiv : v / 256 < 256 ^ k := by
      rw [Nat.pow_succ] at hv
      exact Nat.div_lt_of_lt_mul (by rwa [Nat.mul_comm])
    unfold load store
    rw [ih hdiv, store_of_outside (.inl (Nat.lt_succ_self a)), Function.update_self,
      UInt8.toNat_ofNat']
    omega

end Store

theorem unsigned_lt (k : Nat) (v : Int) : unsigned k v < 256 ^ k := by
  have hpos : 0 < (256 ^ k : Nat) := Nat.pow_pos (by decide)
  have hlt := Int.emod_lt_of_pos v (Int.natCast_pos.2 hpos)
  have hle := Int.emod_nonneg v (Int.natCast_ne_zero.2 (Nat.ne_of_gt hpos))
  unfold unsigned
  omega

theorem signed_unsigned {k : Nat} {v : Int} (hle : -((256 ^ k : Nat) / 2 : Int) ≤ v)
    (hlt : v < ((256 ^ k : Nat) + 1 : Int) / 2) : signed k (unsigned k v) = v := by
  have hpos : 0 < (256 ^ k : Nat) := Nat.pow_pos (by decide)
  have hnonneg := Int.emod_nonneg v (Int.natCast_ne_zero.2 (Nat.ne_of_gt hpos))
  unfold signed unsigned
  rw [Int.toNat_of_nonneg hnonneg, Int.emod_bmod]
  exact Int.bmod_eq_of_le hle hlt

end Bytes

/-- Where the cells of a block of memory lie, and how many bytes they have. -/
structure Layout (ι : Type*) where
  offset : ι → Nat
  width : ι → Nat
  apart : ∀ i j, i ≠ j → offset i + width i ≤ offset j ∨ offset j + width j ≤ offset i

namespace Layout

variable {ι : Type*} (L : Layout ι)

/-- What the cells hold. -/
def view (m : Bytes.Memory) (i : ι) : Nat := Bytes.load m (L.offset i) (L.width i)

/-- **A store in a cell.** -/
theorem view_store [DecidableEq ι] (m : Bytes.Memory) (i : ι) {v : Nat}
    (hv : v < 256 ^ L.width i) :
    L.view (Bytes.store m (L.offset i) (L.width i) v) = Function.update (L.view m) i v := by
  funext j
  by_cases hij : j = i
  · subst hij
    rw [Function.update_self]
    exact Bytes.load_store hv
  · rw [Function.update_of_ne hij]
    exact Bytes.load_store_apart (L.apart i j (Ne.symm hij))

end Layout
