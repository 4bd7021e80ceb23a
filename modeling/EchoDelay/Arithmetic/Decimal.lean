import EchoDelay.Arithmetic.Q9

/-!
# Decimal text

A fixed-point number is written either as its raw steps or in decimal with two places, where it is
rounded to the nearest hundredth and a half goes to the even neighbour.
-/
namespace EchoDelay

/-- The integer nearest to `a / b`; of two that are equally near, the even one. -/
def roundHalfEven (a b : Nat) : Nat :=
  if 2 * (a % b) < b ∨ 2 * (a % b) = b ∧ a / b % 2 = 0 then a / b else a / b + 1

namespace Q9

/-- The magnitude in hundredths. -/
def hundredths (a : Q9) : Nat := roundHalfEven (100 * a.raw.natAbs) 512

def decimal (a : Q9) : String :=
  let sign := if a.raw < 0 then "-" else ""
  let whole := toString (a.hundredths / 100)
  let tens := toString (a.hundredths / 10 % 10)
  let units := toString (a.hundredths % 10)
  sign ++ whole ++ "." ++ tens ++ units

def describe (a : Q9) : String := "Q9(" ++ toString a.raw ++ ")"

end Q9
end EchoDelay
