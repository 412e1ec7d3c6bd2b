import MethodGraph.Binary64.Decimal
/-!
  How a double is written.

  The digits are the shortest that read back.  Numbers from a ten-thousandth up to 10 ^ 16 are
  written positionally and always with a point; all others have the point after the first digit and
  an exponent, and leave out a fraction that is empty.
-/

namespace MethodGraph.Binary64

/-- Which numbers are written positionally, by the exponent of the leading digit. -/
structure DecimalStyle where
  leastPositional : Int
  greatestPositional : Int
  deriving DecidableEq, Repr

/-- The style of constants in listings. -/
def listingStyle : DecimalStyle := ⟨-4, 15⟩

/-- `n` zeros. -/
def zeros (n : Nat) : List Char := List.replicate n '0'

/-- Digits with a point after the first `k` of them, filled up with zeros on either side. -/
def positional (ds : List Char) (k : Int) : List Char :=
  if k ≤ 0 then '0' :: '.' :: (zeros (-k).toNat ++ ds)
  else if ds.length ≤ k.toNat then ds ++ zeros (k.toNat - ds.length) ++ ['.', '0']
  else ds.take k.toNat ++ '.' :: ds.drop k.toNat

/-- Digits with a point after the first, and the exponent of that digit. -/
def scientific (ds : List Char) (e : Int) : List Char :=
  let fraction := match ds.tail with
    | [] => []
    | rest => '.' :: rest
  ds.take 1 ++ fraction ++ 'e' :: (toString e).toList

/-- A positive decimal in a given style. -/
def Decimal.text (style : DecimalStyle) (d : Decimal) : List Char :=
  let ds := Nat.toDigits 10 d.digits
  let leading := d.exponent + ds.length - 1
  if style.leastPositional ≤ leading ∧ leading ≤ style.greatestPositional then
    positional ds (leading + 1)
  else scientific ds leading

/-- The text of a number in listings. -/
def text (x : Binary64) : String :=
  if x.isNaN then "NaN"
  else
    let magnitude :=
      if x.isInfinite then "inf".toList
      else if x.isZero then "0.0".toList
      else (shortest x.significand x.scale).text listingStyle
    String.ofList (if x.isNegative then '-' :: magnitude else magnitude)

end MethodGraph.Binary64
