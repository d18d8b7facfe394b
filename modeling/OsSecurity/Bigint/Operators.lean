/-
Which operations on integers are exact.

All are, and none makes a negative zero, but for three cases.  Counting from minus one up to zero
or from zero down to minus one makes the result in the least cell, and a larger cell does not
survive that (`cleanResizeL`).  A shift to the left by almost 2^32 bits makes no room for the
words that it writes.

The operators that assign (`+=` and so on) take over the cell of the result of `PlusL` and of the
others.
-/
import OsSecurity.Bigint.Shifts

namespace OsSecurity

namespace TInteger

inductive Operation where
  | plusL (operand : Operand)
  | minusL (operand : Operand)
  | timesL (operand : Operand)
  | increment
  | decrement
  | shiftLeft (aBits : UInt32)
  | shiftRight (aBits : UInt32)

namespace Operation

def apply (x : TInteger) : Operation → Leaving TInteger
  | .plusL operand => x.plusL (operand.integer x)
  | .minusL operand => x.minusL (operand.integer x)
  | .timesL operand => x.timesL operand
  | .increment => x.increment
  | .decrement => x.decrement
  | .shiftLeft aBits => x.shiftLeft aBits
  | .shiftRight aBits => x.shiftRight aBits

/-- The number that the operation is to make.  A shift to the right is one of the magnitude. -/
def exact (x : TInteger) : Operation → Int
  | .plusL operand => x.toInt + (operand.integer x).toInt
  | .minusL operand => x.toInt - (operand.integer x).toInt
  | .timesL operand => x.toInt * (operand.integer x).toInt
  | .increment => x.toInt + 1
  | .decrement => x.toInt - 1
  | .shiftLeft aBits => x.toInt * 2 ^ aBits.toNat
  | .shiftRight aBits => x.toInt.tdiv (2 ^ aBits.toNat)

/-- The cell has a size that the operation can cope with. -/
def Fits (x : TInteger) : Operation → Prop
  | .increment => ¬(x.toInt = -1 ∧ 2 < x.size)
  | .decrement => ¬(x.toInt = 0 ∧ 2 < x.size)
  | .shiftLeft aBits => RoomToShift x aBits
  | _ => True

end Operation

/-- **An operation makes the exact result, and no negative zero, exactly if the cell fits.** -/
theorem exact_iff {x : TInteger} (hx : x.WellSigned) (operation : Operation) :
    Makes (operation.apply x) (operation.exact x) ↔ operation.Fits x := by
  cases operation with
  | plusL operand => exact ⟨fun _ => trivial, fun _ => plusL_makes hx _⟩
  | minusL operand => exact ⟨fun _ => trivial, fun _ => minusL_makes hx _⟩
  | timesL operand => exact ⟨fun _ => trivial, fun _ => timesL_makes x operand⟩
  | increment => exact increment_makes_iff hx
  | decrement => exact decrement_makes_iff hx
  | shiftLeft aBits => exact shiftLeft_makes_iff hx aBits
  | shiftRight aBits => exact ⟨fun _ => trivial, fun _ => shiftRight_makes x aBits⟩

/-- Minus seven, in two words, times itself. -/
theorem exact_iff_square :
    Makes (Operation.apply ((cleanNewL 2).constructInt (-7)) (.timesL .itself))
        (Operation.exact ((cleanNewL 2).constructInt (-7)) (.timesL .itself)) ↔
      Operation.Fits ((cleanNewL 2).constructInt (-7)) (.timesL .itself) :=
  exact_iff (fun _ => by decide) (.timesL .itself)

/-- Minus one, in four words, is counted up. -/
theorem not_exact_increment :
    ((cleanNewL 4).constructInt (-1)).WellSigned ∧
      ((cleanNewL 4).constructInt (-1)).toInt = -1 ∧
        ¬Makes (Operation.apply ((cleanNewL 4).constructInt (-1)) .increment) 0 := by
  refine ⟨fun _ => by decide, by decide, ?_⟩
  have hundefined : Operation.apply ((cleanNewL 4).constructInt (-1)) .increment =
      .error .undefined := rfl
  rw [hundefined]
  exact not_makes_undefined 0

end TInteger

end OsSecurity
