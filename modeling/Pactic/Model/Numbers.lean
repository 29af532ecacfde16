import Pactic.Lib.Binary
import Pactic.Lib.Decimal

/-! # Numbers

The arithmetic of the handlers. A number is told by the rational it stands for,
which is also what a statement writes, and the result of an operation is rounded
to a number. The program runs on doubles. Exact arithmetic rounds nothing; it is
the idealisation behind all results that do not name doubles. -/
namespace Pactic
open FixedPoint

/-- Which numbers there are, by the one nearest to a rational. -/
class Arithmetic where
  round : ℚ → ℚ

namespace Arithmetic

instance (priority := low) exact : Arithmetic := ⟨fun x => x⟩

/-- Binary64 without the bounds of its exponent. No operation of the handlers
overflows on a finite amount, and next to zero there is no fee to be rounded. -/
@[reducible] def doubles : Arithmetic := ⟨FloatingPoint.round 52⟩

end Arithmetic

section
variable [Arithmetic]

/-- What `@IsNumber()` lets pass. -/
def IsNumber (x : ℚ) : Prop := Arithmetic.round x = x

instance (x : ℚ) : Decidable (IsNumber x) := inferInstanceAs (Decidable (_ = _))

/-- `a * b` -/
def times (a b : ℚ) : ℚ := Arithmetic.round (a * b)

/-- `a - b` -/
def minus (a b : ℚ) : ℚ := Arithmetic.round (a - b)

/-- The number a decimal is read as, by `parseFloat` or by `toNumber`. -/
def toNumber {d : ℕ} (a : Decimal d) : ℚ := Arithmetic.round a.toRat

/-- The decimal of `d` digits nearest to a number. -/
def toFixed (d : ℕ) (x : ℚ) : Decimal d := .ofRat d x

end

@[simp] theorem toNumber_exact {d : ℕ} (a : Decimal d) : toNumber a = a.toRat := rfl

end Pactic
