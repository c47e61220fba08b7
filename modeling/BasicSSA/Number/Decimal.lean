import BasicSSA.Number.Binary

/-!
# Decimal text to numbers

A text holding a point or an exponent mark is read as a double: blanks and a sign may lead, and
reading stops at the first character that does not fit. Any other text is read as a 64-bit
integer, where only a minus sign may lead. In both cases what follows the number is ignored.
-/

namespace BasicSSA

def digitValue (c : Char) : Nat :=
  c.toNat - '0'.toNat

/-- The natural number that a list of digits spells. -/
def digitsValue (ds : List Char) : Nat :=
  ds.foldl (fun n c => 10 * n + digitValue c) 0

namespace Decimal

/-- A decimal number `± digits · 10 ^ exponent`. -/
structure Scientific where
  negative : Bool
  digits : Nat
  exponent : Int

/-- The power of ten after an exponent mark, if digits follow the mark. -/
def readExponent : List Char → Int
  | mark :: rest =>
    if mark == 'e' || mark == 'E' then
      match rest with
      | '-' :: more => -(digitsValue (more.takeWhile Char.isDigit) : Nat)
      | '+' :: more => (digitsValue (more.takeWhile Char.isDigit) : Nat)
      | _ => (digitsValue (rest.takeWhile Char.isDigit) : Nat)
    else 0
  | [] => 0

/-- Digits, a point and digits, an exponent; at least one digit before the exponent. -/
def readUnsigned (negative : Bool) (cs : List Char) : Option Scientific :=
  let whole := cs.takeWhile Char.isDigit
  let rest := cs.dropWhile Char.isDigit
  let (fraction, rest) :=
    match rest with
    | '.' :: more => (more.takeWhile Char.isDigit, more.dropWhile Char.isDigit)
    | _ => ([], rest)
  if whole.isEmpty && fraction.isEmpty then none
  else some ⟨negative, digitsValue (whole ++ fraction), readExponent rest - fraction.length⟩

/-- A blank before a number. -/
def isBlank (c : Char) : Bool :=
  c == ' ' || (9 ≤ c.toNat && c.toNat ≤ 13)

def read (cs : List Char) : Option Scientific :=
  match cs.dropWhile isBlank with
  | '-' :: rest => readUnsigned true rest
  | '+' :: rest => readUnsigned false rest
  | rest => readUnsigned false rest

/-- The nearest double. A number far outside the range of doubles is not expanded. -/
def Scientific.toDouble (s : Scientific) : Double :=
  let reach : Int := (Nat.toDigits 10 s.digits).length + s.exponent
  if s.digits = 0 then Double.ofMagnitude s.negative 0
  else if reach > 400 then Double.ofMagnitude s.negative BinaryFormat.double.infinity
  else if reach < -400 then Double.ofMagnitude s.negative 0
  else if 0 ≤ s.exponent then
    Double.ofRatio s.negative (s.digits * Nat.pow 10 s.exponent.toNat) 1
  else Double.ofRatio s.negative s.digits (Nat.pow 10 (-s.exponent).toNat)

end Decimal

/-- The nearest double to the number at the head of a text, zero if there is none. -/
def readDouble (cs : List Char) : Double :=
  match Decimal.read cs with
  | some s => s.toDouble
  | none => Double.ofMagnitude false 0

inductive NumberReading where
  | integer (value : Int)
  | float (value : Double)
  | overflow
  | invalid (float : Bool)
  deriving DecidableEq, Repr

def maxLong : Nat := Nat.pow 2 63 - 1

def maxInteger : Nat := Nat.pow 2 31 - 1

def readInteger (negative : Bool) (cs : List Char) : NumberReading :=
  let ds := cs.takeWhile Char.isDigit
  if ds.isEmpty then .invalid false
  else if digitsValue ds ≤ (if negative then maxLong + 1 else maxLong) then
    .integer (if negative then -(digitsValue ds : Nat) else (digitsValue ds : Nat))
  else .overflow

def readNumber (text : String) : NumberReading :=
  let cs := text.toList
  if cs.any fun c => c == '.' || c == 'e' || c == 'E' then
    match Decimal.read cs with
    | some s => .float s.toDouble
    | none => .invalid true
  else
    match cs with
    | '-' :: rest => readInteger true rest
    | _ => readInteger false cs

end BasicSSA
