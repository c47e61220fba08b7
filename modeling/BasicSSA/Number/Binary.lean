/-!
# Binary floating point

`Double` and `Single` are bit patterns of the two binary formats. A positive rational is rounded
to the nearest value of a format, a tie to the even neighbour, in exact arithmetic.
-/

namespace BasicSSA

/-- The quotient of two naturals rounded to the nearest natural, a tie to the even one. -/
def roundQuotient (num den : Nat) : Nat :=
  let q := num / den
  let twice := 2 * (num % den)
  if twice < den then q
  else if den < twice then q + 1
  else q + q % 2

/-- The floor of the base-two logarithm of a positive rational. -/
def ratioLog2 (num den : Nat) : Int :=
  let guess : Int := (num.log2 : Int) - (den.log2 : Int)
  let reached :=
    if 0 ≤ guess then decide (den * Nat.pow 2 guess.toNat ≤ num)
    else decide (den ≤ num * Nat.pow 2 (-guess).toNat)
  if reached then guess else guess - 1

/-- A binary format: values are whole multiples, below `2 ^ digits`, of a power of two that is at
least `2 ^ leastUnit`; patterns from `infinity` on are no finite values. -/
structure BinaryFormat where
  digits : Nat
  leastUnit : Int
  infinity : Nat

/-- The pattern of the value nearest to a positive rational. -/
def BinaryFormat.ofRatio (f : BinaryFormat) (num den : Nat) : Nat :=
  let unit := max (ratioLog2 num den - ((f.digits : Int) - 1)) f.leastUnit
  let mantissa :=
    if 0 ≤ unit then roundQuotient num (den * Nat.pow 2 unit.toNat)
    else roundQuotient (num * Nat.pow 2 (-unit).toNat) den
  min (mantissa + (unit - f.leastUnit).toNat * Nat.pow 2 (f.digits - 1)) f.infinity

def BinaryFormat.double : BinaryFormat := ⟨53, -1074, 0x7ff0000000000000⟩

def BinaryFormat.single : BinaryFormat := ⟨24, -149, 0x7f800000⟩

/-- A pattern without its sign as a whole multiple of a power of two. -/
def BinaryFormat.decode (f : BinaryFormat) (pattern : Nat) : Nat × Int :=
  let fraction := pattern % Nat.pow 2 (f.digits - 1)
  let scale := pattern / Nat.pow 2 (f.digits - 1)
  if scale = 0 then (fraction, f.leastUnit)
  else (fraction + Nat.pow 2 (f.digits - 1), f.leastUnit + (scale : Int) - 1)

/-- A multiple of a power of two as a quotient of naturals. -/
def dyadicRatio (mantissa : Nat) (unit : Int) : Nat × Nat :=
  if 0 ≤ unit then (mantissa * Nat.pow 2 unit.toNat, 1) else (mantissa, Nat.pow 2 (-unit).toNat)

/-- A double-precision number, given by its bit pattern. -/
structure Double where
  bits : UInt64
  deriving DecidableEq, Inhabited, Repr

/-- A single-precision number, given by its bit pattern. -/
structure Single where
  bits : UInt32
  deriving DecidableEq, Inhabited, Repr

namespace Double

def isNegative (d : Double) : Bool :=
  d.bits.toNat ≥ Nat.pow 2 63

def magnitude (d : Double) : Nat :=
  d.bits.toNat % Nat.pow 2 63

def isZero (d : Double) : Bool :=
  d.magnitude == 0

def isFinite (d : Double) : Bool :=
  d.magnitude < BinaryFormat.double.infinity

def isNaN (d : Double) : Bool :=
  d.magnitude > BinaryFormat.double.infinity

def ofMagnitude (negative : Bool) (magnitude : Nat) : Double :=
  ⟨UInt64.ofNat (magnitude + if negative then Nat.pow 2 63 else 0)⟩

def neg (d : Double) : Double :=
  ofMagnitude (!d.isNegative) d.magnitude

/-- The nearest double to a signed rational; a zero keeps its sign. -/
def ofRatio (negative : Bool) (num den : Nat) : Double :=
  ofMagnitude negative (if num = 0 then 0 else BinaryFormat.double.ofRatio num den)

def ofInt (n : Int) : Double :=
  ofRatio (decide (n < 0)) n.natAbs 1

/-- The absolute value of a finite double as a quotient of naturals. -/
def ratio (d : Double) : Nat × Nat :=
  let (mantissa, unit) := BinaryFormat.double.decode d.magnitude
  dyadicRatio mantissa unit

/-- Numeric equality: the two zeros are equal and a NaN is equal to nothing. -/
def equals (a b : Double) : Bool :=
  !a.isNaN && !b.isNaN && (a.bits == b.bits || (a.isZero && b.isZero))

def isBelowZero (d : Double) : Bool :=
  d.isNegative && !d.isZero && !d.isNaN

def truncate (d : Double) : Int :=
  let (num, den) := d.ratio
  if d.isNegative then -((num / den : Nat) : Int) else ((num / den : Nat) : Int)

end Double

namespace Single

def ofDouble (d : Double) : Single :=
  let sign := if d.isNegative then Nat.pow 2 31 else 0
  let magnitude :=
    if d.isZero then 0
    else if d.isFinite then BinaryFormat.single.ofRatio d.ratio.1 d.ratio.2
    else if d.isNaN then 0x7fc00000
    else BinaryFormat.single.infinity
  ⟨UInt32.ofNat (magnitude + sign)⟩

/-- A single as a double, without loss. -/
def toDouble (s : Single) : Double :=
  let negative := decide (s.bits.toNat ≥ Nat.pow 2 31)
  let magnitude := s.bits.toNat % Nat.pow 2 31
  if magnitude < BinaryFormat.single.infinity then
    let (mantissa, unit) := BinaryFormat.single.decode magnitude
    let (num, den) := dyadicRatio mantissa unit
    Double.ofRatio negative num den
  else if magnitude = BinaryFormat.single.infinity then
    Double.ofMagnitude negative BinaryFormat.double.infinity
  else Double.ofMagnitude negative 0x7ff8000000000000

end Single

end BasicSSA
