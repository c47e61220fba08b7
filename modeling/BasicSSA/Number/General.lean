import BasicSSA.Number.Decimal
import BasicSSA.Text

/-!
# Floating point text

`Double.general n` writes a double with `n` significant digits, the last one rounded to nearest
with a tie to even. Exponents from -4 up to `n - 1` are written positionally, others after an `e`
with a sign and at least two digits, and zeros at the end of the fraction are left out.
-/

namespace BasicSSA

/-- The floor of the base-ten logarithm of a positive rational. -/
def ratioLog10 (num den : Nat) : Int :=
  let least := ratioLog2 num den * 30103 / 100000 - 2
  let reached (k : Int) : Bool :=
    if 0 ≤ k then decide (den * Nat.pow 10 k.toNat ≤ num)
    else decide (den ≤ num * Nat.pow 10 (-k).toNat)
  least + ((List.range 6).takeWhile fun (i : Nat) => reached (least + (i : Int) + 1)).length

/-- The quotient `num / den · 10 ^ power` rounded to the nearest natural. -/
def scaleAndRound (num den : Nat) (power : Int) : Nat :=
  if 0 ≤ power then roundQuotient (num * Nat.pow 10 power.toNat) den
  else roundQuotient num (den * Nat.pow 10 (-power).toNat)

/-- A positive rational rounded to `n` significant digits: the digits and the exponent of the
first of them. -/
def significant (n num den : Nat) : Nat × Int :=
  let exponent := ratioLog10 num den
  let digits := scaleAndRound num den ((n : Int) - 1 - exponent)
  if digits < Nat.pow 10 n then (digits, exponent) else (Nat.pow 10 (n - 1), exponent + 1)

/-- A fraction with its point, without zeros at its end; nothing if only zeros are left. -/
def fractionText (digits : List Char) : List Char :=
  match (digits.reverse.dropWhile (· == '0')).reverse with
  | [] => []
  | ds => '.' :: ds

/-- An exponent after its mark: a sign and at least two digits. -/
def exponentText (exponent : Int) : List Char :=
  let digits := Nat.toDigits 10 exponent.natAbs
  'e' :: (if exponent < 0 then '-' else '+') ::
    (if digits.length < 2 then '0' :: digits else digits)

def significantText (n digits : Nat) (exponent : Int) : List Char :=
  let ds := Nat.toDigits 10 digits
  if exponent < -4 || (n : Int) ≤ exponent then
    ds.take 1 ++ fractionText (ds.drop 1) ++ exponentText exponent
  else if 0 ≤ exponent then
    ds.take (exponent.toNat + 1) ++ fractionText (ds.drop (exponent.toNat + 1))
  else '0' :: fractionText (List.replicate ((-exponent).toNat - 1) '0' ++ ds)

namespace Double

/-- The text with `n` significant digits. -/
def general (n : Nat) (d : Double) : String :=
  let sign := if d.isNegative then "-" else ""
  if d.isNaN then sign ++ "nan"
  else if !d.isFinite then sign ++ "inf"
  else if d.isZero then sign ++ "0"
  else
    let (digits, exponent) := significant n d.ratio.1 d.ratio.2
    sign ++ String.ofList (significantText n digits exponent)

/-- The text with the fewest of 15, 16 and 17 digits that reads back as the number, and a point or
an exponent in the text of every finite number. -/
def literalText (d : Double) : String :=
  if d.isZero then (if d.isNegative then "-0.0" else "0.0")
  else
    let text :=
      if (readDouble (d.general 15).toList).equals d then d.general 15
      else if (readDouble (d.general 16).toList).equals d then d.general 16
      else d.general 17
    if d.isFinite && !text.toList.any (fun c => c == '.' || c == 'e' || c == 'E') then text ++ ".0"
    else text

end Double

end BasicSSA
