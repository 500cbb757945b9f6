/-!
# Numerals

Whole numbers may be written in a base that a leading mark names: `0x` for sixteen, `0o` or a plain
zero for eight, `0b` for two, and ten otherwise. Decimal fractions with an exponent stand for the
nearest number that has 53 binary digits, halves going to the even one; what is asked of them here
is their whole part.
-/

namespace RobotGolf.Numeral

/-! ### Whole numbers -/

/-- The value of a digit in bases up to 36. -/
def digit? (c : Char) : Option Nat :=
  if c.isDigit then some (c.toNat - 48)
  else if 'a' ≤ c ∧ c ≤ 'z' then some (c.toNat - 87)
  else if 'A' ≤ c ∧ c ≤ 'Z' then some (c.toNat - 55)
  else none

/-- The value of some digits in a base, `before` being the value of those in front of them. -/
def digits? (base before : Nat) : List Char → Option Nat
  | [] => some before
  | c :: rest =>
    match digit? c with
    | none => none
    | some d => if d < base then digits? base (base * before + d) rest else none

/-- Splits the mark of a base off. A zero that starts a numeral is the mark for eight, unless a mark
with a letter and at least one more character follows. -/
def splitBase (cs : List Char) : Nat × List Char :=
  match cs with
  | '0' :: letter :: c :: rest =>
    if letter = 'b' ∨ letter = 'B' then (2, c :: rest)
    else if letter = 'o' ∨ letter = 'O' then (8, c :: rest)
    else if letter = 'x' ∨ letter = 'X' then (16, c :: rest)
    else (8, letter :: c :: rest)
  | '0' :: rest => (8, rest)
  | _ => (10, cs)

/-- The value of an unsigned whole number. -/
def natural? (cs : List Char) : Option Nat :=
  if cs.isEmpty then none
  else
    let (base, digits) := splitBase cs
    digits? base 0 digits

/-- Splits an optional sign off, and tells whether it is a minus. -/
def splitSign (cs : List Char) : Bool × List Char :=
  match cs with
  | '-' :: rest => (true, rest)
  | '+' :: rest => (false, rest)
  | _ => (false, cs)

/-- The number with a given size, negative or not. -/
def signed (negative : Bool) (n : Nat) : Int := if negative then -(n : Int) else n

/-- The value of a whole number with an optional sign. -/
def integer? (cs : List Char) : Option Int :=
  let (negative, unsigned) := splitSign cs
  (natural? unsigned).map (signed negative)

/-- A whole number as a signed 64-bit word, if it fits. -/
def fitting? (n : Int) : Option Int64 :=
  if -Int.pow 2 63 ≤ n ∧ n < Int.pow 2 63 then some (Int64.ofInt n) else none

/-- The value of a whole number that fits a signed 64-bit word. -/
def word? (cs : List Char) : Option Int64 := (integer? cs).bind fitting?

/-- The value of a binary number with an optional sign that fits a signed 64-bit word. -/
def binaryWord? (cs : List Char) : Option Int64 :=
  let (negative, unsigned) := splitSign cs
  if unsigned.isEmpty then none
  else ((digits? 2 0 unsigned).map (signed negative)).bind fitting?

/-! ### Separated digits -/

/-- What stands in front of a character of a numeral, as far as underscores care. -/
inductive Preceding where
  | digit
  | underscore
  | other
  deriving DecidableEq, Repr

/-- Whether underscores stand only between digits. -/
def separates (isDigit : Char → Bool) : Preceding → List Char → Bool
  | before, [] => before != .underscore
  | before, c :: rest =>
    if isDigit c then separates isDigit .digit rest
    else if c == '_' then before == .digit && separates isDigit .underscore rest
    else before != .underscore && separates isDigit .other rest

/-- Whether underscores stand only between digits of a number, the mark of a base counting as a
digit. Letters are digits only behind the mark for sixteen. -/
def underscoresFit (cs : List Char) : Bool :=
  let unsigned := (splitSign cs).2
  match unsigned with
  | '0' :: letter :: rest =>
    if letter.toLower = 'x' then separates (fun c => (digits? 16 0 [c]).isSome) .digit rest
    else if letter.toLower ∈ ['b', 'o'] then separates Char.isDigit .digit rest
    else separates Char.isDigit .other unsigned
  | _ => separates Char.isDigit .other unsigned

/-- A numeral without the underscores that separate its digits. -/
def unseparated? (cs : List Char) : Option (List Char) :=
  if cs.contains '_' ∧ ¬ underscoresFit cs then none else some (cs.filter (· != '_'))

/-- The value of a whole number in which underscores may separate digits, if it fits a signed 64-bit
word. The mark of a base is not to be torn apart. -/
def separated? (cs : List Char) : Option Int64 :=
  let (negative, unsigned) := splitSign cs
  let (base, digits) := splitBase unsigned
  if unsigned.isEmpty ∨ (unseparated? unsigned).isNone then none
  else ((digits? base 0 (digits.filter (· != '_'))).map (signed negative)).bind fitting?

/-! ### Decimal fractions -/

/-- A decimal fraction: `mantissa * 10 ^ exponent`, or its negative. -/
structure Decimal where
  negative : Bool
  mantissa : Nat
  exponent : Int
  deriving DecidableEq, Repr

/-- The exponent of a decimal fraction: nothing, or a letter `e` with a whole number behind it. -/
def exponent? (cs : List Char) : Option Int :=
  match cs with
  | [] => some 0
  | letter :: rest =>
    if letter = 'e' ∨ letter = 'E' then
      let (negative, digits) := splitSign rest
      if digits.isEmpty then none
      else (digits? 10 0 digits).map fun n => if negative then -(n : Int) else n
    else none

/-- Reads a decimal fraction: digits with a point among or behind them, or a point with digits
behind it, and perhaps an exponent. -/
def Decimal.ofChars? (cs : List Char) : Option Decimal :=
  let (negative, unsigned) := splitSign cs
  let (whole, behind) := unsigned.span Char.isDigit
  let (fraction, rest, pointed) := match behind with
    | '.' :: more => (more.takeWhile Char.isDigit, more.dropWhile Char.isDigit, true)
    | _ => ([], behind, false)
  if whole.isEmpty ∧ (fraction.isEmpty ∨ ¬ pointed) then none
  else
    match digits? 10 0 (whole ++ fraction), exponent? rest with
    | some mantissa, some exponent => some ⟨negative, mantissa, exponent - fraction.length⟩
    | _, _ => none

/-- The quotient of two numbers rounded to the nearest whole number, halves to the even one. -/
def roundQuotient (a b : Nat) : Nat :=
  let q := a / b
  let twice := 2 * (a % b)
  if b < twice ∨ (twice = b ∧ q % 2 = 1) then q + 1 else q

/-- The whole part of the number with 53 binary digits that is nearest to `a / b`. -/
def nearestWhole (a b : Nat) : Nat :=
  if a = 0 then 0
  else
    let estimate : Int := 53 - ((Nat.log2 a : Int) - Nat.log2 b)
    let scaled (s : Int) : Nat × Nat := (a * Nat.pow 2 s.toNat, b * Nat.pow 2 (-s).toNat)
    let fits := (scaled estimate).1 < Nat.pow 2 53 * (scaled estimate).2
    let s := if fits then estimate else estimate - 1
    roundQuotient (scaled s).1 (scaled s).2 * Nat.pow 2 (-s).toNat / Nat.pow 2 s.toNat

/-- The whole part of the number that a decimal fraction stands for, without its sign. There is none
from `2 ^ 1024` on. -/
def Decimal.whole? (d : Decimal) : Option Nat :=
  let magnitude : Int := (Nat.toDigits 10 d.mantissa).length + d.exponent
  if d.mantissa = 0 ∨ magnitude < -10 then some 0
  else if 400 < magnitude then none
  else
    let n :=
      nearestWhole (d.mantissa * Nat.pow 10 d.exponent.toNat) (Nat.pow 10 (-d.exponent).toNat)
    if n < Nat.pow 2 1024 then some n else none

end RobotGolf.Numeral
