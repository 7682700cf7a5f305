/-
# More operations on floats

What scores and norms need besides `Floats`: products, quotients, roots,
logarithms, and the conversions from and to whole numbers and texts.
-/
import Mathlib.Data.Nat.Sqrt
import Mathlib.Data.Rat.Floor
import Amind.Core.MemoryRecord

namespace Amind
namespace Core

class FloatOps (F : Type) extends Floats F, Mul F, Div F, OfScientific F where
  sqrt : F → F
  log : F → F
  ofUInt32 : UInt32 → F
  toUInt64 : F → UInt64
  toText : F → Text

export FloatOps (sqrt log ofUInt32 toUInt64 toText)

/-- A nonnegative number with six decimals. -/
def sixDecimals (q : ℚ) : Text :=
  let n := (q * 1000000 + 1 / 2).floor.toNat
  Utf8.bytes (toString (n / 1000000)) ++ Utf8.bytes "." ++
    Utf8.bytes ((toString (1000000 + n % 1000000)).drop 1).toString

/-- Rationals, for runs that take roots of squares and logarithms of 1 only. -/
instance FloatOps.rational : FloatOps ℚ where
  decidableLT := inferInstance
  decidableLE := inferInstance
  sqrt q := (Nat.sqrt q.num.toNat : ℚ) / Nat.sqrt q.den
  log := fun _ => 0
  ofUInt32 x := x.toNat
  toUInt64 q := UInt64.ofNat q.floor.toNat
  toText := sixDecimals

end Core
end Amind
