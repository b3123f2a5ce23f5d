import Mathlib.Data.List.Basic

/-!
# Ground types of the web switch

What every module of the model uses: the ways a run of the C code can end without a result
(`Stop`), checked `int` arithmetic, and the `Throwable` that the functions of the switch return.
`Stop.fuel` is the model's own (the bound of a loop was used up); every other `Stop` is a point
where the C code has no defined behaviour.
-/

namespace Heimdall

/-- A `char`. -/
abbrev Byte := UInt8

/-- A `char *` that is stored and compared but not read through; 0 is NULL. -/
abbrev CharPtr := Nat

inductive Stop
  | fuel
  | nullDeref
  | outOfBounds
  | useAfterFree
  | overflow
  | divByZero
  deriving DecidableEq, Repr

abbrev Exec := Except Stop

theorem Exec.bind_ok {α β : Type} {x : Exec α} {f : α → Exec β} {b : β} (h : x >>= f = .ok b) :
    ∃ a, x = .ok a ∧ f a = .ok b := by
  cases x with
  | error e => cases h
  | ok a => exact ⟨a, rfl, h⟩

@[simp] theorem Exec.ok_bind {α β : Type} (a : α) (f : α → Exec β) :
    ((Except.ok a : Exec α) >>= f) = f a := rfl

/-! ## `int` arithmetic -/

section Int

def intMin : Int := -2147483648

def intMax : Int := 2147483647

/-- The value fits in an `int`. -/
def FitsInt (x : Int) : Prop := intMin ≤ x ∧ x ≤ intMax

instance (x : Int) : Decidable (FitsInt x) := inferInstanceAs (Decidable (_ ∧ _))

/-- An `int` result: a value outside the type is signed overflow. -/
def checkInt (x : Int) : Exec Int := if FitsInt x then .ok x else .error .overflow

theorem checkInt_ok {x y : Int} (h : checkInt x = .ok y) : y = x ∧ FitsInt x := by
  unfold checkInt at h
  split at h
  · cases h; exact ⟨rfl, ‹_›⟩
  · cases h

theorem checkInt_of_fits {x : Int} (h : FitsInt x) : checkInt x = .ok x := by
  unfold checkInt
  rw [if_pos h]

end Int

/-! ## Throwables -/

section Throwable

def statusOk : Int := 0

def statusError : Int := -1

/-- The `message` of a throwable: NULL, the text of `errno`, or a literal. -/
inductive Message
  | null
  | errno
  | text (s : String)
  deriving DecidableEq, Repr

structure Throwable where
  status : Int
  message : Message
  stackTrace : String
  deriving DecidableEq, Repr

namespace Throwable

def create (status : Int) (message : Message) (stackTrace : String) : Throwable :=
  ⟨status, message, stackTrace⟩

def isAnError (t : Throwable) : Bool := t.status != statusOk

def thrown (t : Throwable) (stackTrace : String) : Throwable :=
  { t with stackTrace := t.stackTrace ++ "->" ++ stackTrace }

@[simp] theorem create_ok (m : Message) (tr : String) :
    (create statusOk m tr).isAnError = false := rfl

@[simp] theorem create_error (m : Message) (tr : String) :
    (create statusError m tr).isAnError = true := rfl

/-- Passing an error on does not change whether it is one. -/
@[simp] theorem isAnError_thrown (t : Throwable) (tr : String) :
    (t.thrown tr).isAnError = t.isAnError := rfl

end Throwable

end Throwable

end Heimdall
