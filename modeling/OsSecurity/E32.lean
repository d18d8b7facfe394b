/-
The part of the platform the security components stand on: error codes, the three
ways a function can be left, 32-bit integers and descriptors.

A Symbian function whose name ends in `L` may *leave* with an error code, which a
`TRAP` further up catches; an assertion that fails *panics* and ends the thread, and
nothing catches that.  A third way out has no name in the source: signed arithmetic
that leaves the range of `TInt`, or a pointer that leaves its cell, has no defined
result.  Keeping the three apart is what lets a theorem say which one a malformed
certificate can provoke.

`TInt` is modelled by `Int`.  Where the source computes with a value that came out
of an encoding, the model wraps it to 32 bits with `TInt.wrap`; counters that a
loop keeps between zero and an array's length are left alone.

A descriptor is the list of its elements.  `left`, `right` and `mid` are the
documented ones: `left` and `right` give the whole descriptor when asked for more
than there is and panic on a negative length, `mid` panics on anything outside.
-/
import Mathlib.Data.List.Basic
import Mathlib.Data.Int.Basic
import Mathlib.Tactic.Ring
import Mathlib.Tactic.Linarith

namespace OsSecurity

def KErrNone : Int := 0
def KErrNotFound : Int := -1
def KErrGeneral : Int := -2
def KErrCancel : Int := -3
def KErrNoMemory : Int := -4
def KErrNotSupported : Int := -5
def KErrArgument : Int := -6
def KErrBadHandle : Int := -8
def KErrOverflow : Int := -9
def KErrAlreadyExists : Int := -11
def KErrBadDescriptor : Int := -38
def KErrTooBig : Int := -40
def KErrPermissionDenied : Int := -46
def KErrScsAsyncAlreadyQueued : Int := -5702
def KErrKeySize : Int := -11009

def KMaxTInt : Int := 2147483647
def KMinTInt : Int := -2147483648

/-- How a function is left, other than by returning. -/
inductive Exit where
  /-- `User::Leave` -/
  | leave (aError : Int)
  /-- a failed assertion, or a descriptor asked for what it does not hold -/
  | panic
  /-- signed arithmetic outside the range of `TInt`, or memory outside a cell -/
  | undefined
  deriving DecidableEq

/-- The result of a function that may leave. -/
abbrev Leaving (α : Type) := Except Exit α

def leave {α : Type} (aError : Int) : Leaving α := .error (.leave aError)

def panic {α : Type} : Leaving α := .error .panic

namespace TInt

/-- Two's complement arithmetic keeps the low 32 bits. -/
def wrap (x : Int) : Int := x.bmod 4294967296

theorem wrap_of_range {x : Int} (hlo : KMinTInt ≤ x) (hhi : x ≤ KMaxTInt) : wrap x = x := by
  unfold wrap KMinTInt KMaxTInt at *
  exact Int.bmod_eq_of_le (by omega) (by omega)

theorem wrap_le (x : Int) : wrap x ≤ KMaxTInt := by
  have h := Int.bmod_lt (x := x) (m := 4294967296) (by omega)
  unfold wrap KMaxTInt
  omega

/-- `x--` on a value nothing bounds from below. -/
def dec (x : Int) : Leaving Int := if x ≤ KMinTInt then .error .undefined else .ok (x - 1)

theorem dec_ok {x y : Int} : dec x = .ok y ↔ KMinTInt < x ∧ y = x - 1 := by
  unfold dec
  split
  · simp only [reduceCtorEq, false_iff]; omega
  · simp only [Except.ok.injEq]; omega

end TInt

/-! ### Sequencing functions that may leave -/

section Leaving

variable {α β : Type}

@[simp] theorem ok_bind (a : α) (f : α → Leaving β) :
    (Except.ok a >>= f : Leaving β) = f a := rfl

@[simp] theorem leaving_bind_error (e : Exit) (f : α → Leaving β) :
    ((Except.error e : Leaving α) >>= f) = .error e := rfl

@[simp] theorem leave_bind (e : Int) (f : α → Leaving β) : (leave e >>= f) = leave e := rfl

@[simp] theorem leaving_pure (a : α) : (pure a : Leaving α) = .ok a := rfl

theorem bind_eq_ok {x : Leaving α} {f : α → Leaving β} {b : β} :
    (x >>= f) = .ok b ↔ ∃ a, x = .ok a ∧ f a = .ok b := by
  cases x with
  | ok a => simp
  | error e => simp

@[simp] theorem leave_ne_ok (e : Int) (a : α) : (leave e : Leaving α) ≠ .ok a := by
  simp [leave]

@[simp] theorem panic_ne_ok (a : α) : (panic : Leaving α) ≠ .ok a := by
  simp [panic]

end Leaving

/-! ### Descriptors -/

/-- An 8-bit descriptor. -/
abbrev Bytes := List UInt8

/-- A 16-bit descriptor. -/
abbrev Text := List UInt16

instance Text.lawfulBEq : LawfulBEq Text := inferInstance

namespace TDes

variable {α : Type}

def left (d : List α) (aLength : Int) : Leaving (List α) :=
  if aLength < 0 then panic else .ok (d.take aLength.toNat)

def right (d : List α) (aLength : Int) : Leaving (List α) :=
  if aLength < 0 then panic else .ok (d.drop (d.length - aLength.toNat))

def mid (d : List α) (aPos aLength : Int) : Leaving (List α) :=
  if aPos < 0 ∨ aLength < 0 ∨ (d.length : Int) < aPos + aLength then panic
  else .ok ((d.drop aPos.toNat).take aLength.toNat)

/-- `d[aPos]` -/
def at' (d : List α) (aPos : Int) : Leaving α :=
  if aPos < 0 then panic
  else match d[aPos.toNat]? with
    | some a => .ok a
    | none => panic

theorem mid_ok {d r : List α} {aPos aLength : Int} (h : mid d aPos aLength = .ok r) :
    0 ≤ aPos ∧ 0 ≤ aLength ∧ aPos + aLength ≤ d.length ∧
      r = (d.drop aPos.toNat).take aLength.toNat := by
  unfold mid at h
  split at h
  · simp at h
  · simp only [Except.ok.injEq] at h
    exact ⟨by omega, by omega, by omega, h.symm⟩

end TDes

end OsSecurity
