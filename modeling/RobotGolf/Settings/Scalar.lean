import RobotGolf.Settings.Timestamp
import RobotGolf.Text.Base64
import RobotGolf.Text.Numeral
/-!
# The meaning of scalars

A plain scalar of a document stands for nothing, a truth value, a whole number, a fraction or a
timestamp if it is written like one, and for its text otherwise. A quoted scalar stands for its
text. A tag may ask for one of these meanings, and then the text has to have it; a text has any
other meaning that a tag may ask for.
-/

namespace RobotGolf

/-- What a scalar stands for. A fraction is kept as the whole number that a setting takes from it,
if it can take one. -/
inductive Scalar where
  | null
  | boolean
  | integer (n : Int)
  | fraction (word : Option Int64)
  | timestamp
  | string (text : String)
  deriving DecidableEq, Repr

namespace Scalar

/-! ### Spellings -/

/-- The spellings of nothing. -/
def nulls : List String := ["", "~", "null", "Null", "NULL"]

/-- The spellings of truth values. -/
def booleans : List String :=
  ["y", "Y", "yes", "Yes", "YES", "n", "N", "no", "No", "NO", "true", "True", "TRUE", "false",
    "False", "FALSE", "on", "On", "ON", "off", "Off", "OFF"]

/-- The spellings of what is no finite number, with the whole number taken from it: there is one
only for minus infinity. -/
def extremes : List (String × Option Int64) :=
  [(".nan", none), (".NaN", none), (".NAN", none), (".inf", none), (".Inf", none), (".INF", none),
    ("+.inf", none), ("+.Inf", none), ("+.INF", none), ("-.inf", some Int64.minValue),
    ("-.Inf", some Int64.minValue), ("-.INF", some Int64.minValue)]

/-! ### Numbers -/

/-- The whole number that is taken from a fraction: its whole part. Above `2 ^ 63` there is none,
and all that fits no word otherwise gives the smallest word. -/
def wholeWord (negative : Bool) (n : Nat) : Option Int64 :=
  if negative then some (if n ≤ Nat.pow 2 63 then Int64.ofInt (-n) else Int64.minValue)
  else if Nat.pow 2 63 < n then none
  else some (Int64.ofInt n)

/-- A fraction that is written in decimal. -/
def fraction? (cs : List Char) : Option Scalar := do
  let d ← Numeral.Decimal.ofChars? cs
  let n ← d.whole?
  some (fraction (wholeWord d.negative n))

/-- The fraction for a whole number. -/
def ofInteger (n : Int) : Scalar := fraction (wholeWord (n < 0) (Numeral.nearestWhole n.natAbs 1))

/-- A whole number in base two, behind whose mark there may be a sign. -/
def markedBinary? (cs : List Char) : Option Scalar :=
  match cs with
  | '0' :: 'b' :: rest => (Numeral.binaryWord? rest).map fun n => integer n.toInt
  | _ => none

/-- A number: a whole one that fits a signed or an unsigned word, or a fraction. Underscores in it
do not count. -/
def number? (cs : List Char) : Option Scalar :=
  let bare := cs.filter (· != '_')
  let fallback := (fraction? bare).or (markedBinary? bare)
  match Numeral.word? bare, Numeral.natural? bare with
  | some n, _ => some (integer n.toInt)
  | none, some n => if n < Nat.pow 2 64 then some (integer n) else fallback
  | none, none => fallback

/-! ### Meanings -/

/-- What a text stands for by itself. Timestamps are told from numbers only if they are asked for.
-/
def ofText (text : String) (dated : Bool) : Scalar :=
  if nulls.contains text then null
  else if booleans.contains text then boolean
  else
    match extremes.lookup text, text.toList with
    | some word, _ => fraction word
    | none, '.' :: rest => ((Numeral.unseparated? ('.' :: rest)).bind fraction?).getD (string text)
    | none, c :: rest =>
      if c.isDigit ∨ c = '+' ∨ c = '-' then
        if dated ∧ Timestamp.isTimestamp text then timestamp
        else (number? (c :: rest)).getD (string text)
      else string text
    | none, [] => null

/-- The tag of what a scalar stands for. -/
def tag : Scalar → String
  | null => "!!null"
  | boolean => "!!bool"
  | integer _ => "!!int"
  | fraction _ => "!!float"
  | timestamp => "!!timestamp"
  | string _ => "!!str"

/-- The tags that ask for a meaning which not every text has. -/
def selective : List String := ["!!null", "!!bool", "!!int", "!!float", "!!timestamp"]

/-- Why a text does not have the meaning that a tag asks for. -/
inductive Refusal where
  | notBase64
  | otherMeaning (found text asked : String)
  deriving DecidableEq, Repr

/-- The wording of a refusal. -/
def Refusal.message : Refusal → String
  | notBase64 => "!!binary value contains invalid base64 data"
  | otherMeaning found text asked =>
    "cannot decode " ++ found ++ " \x60" ++ text ++ "\x60 as a " ++ asked

/-- What a text stands for if a tag of YAML itself asks for it, and if the text has such a meaning.
A whole number is a fraction as well, if it fits a word. -/
def ofTagged (asked text : String) : Except Refusal Scalar :=
  if asked = "!!binary" then
    match Base64.decode? text with
    | none => .error .notBase64
    | some octets => .ok (string (Bytes.toText octets))
  else if selective.contains asked then
    let s := ofText text (asked = "!!timestamp")
    let refusal : Except Refusal Scalar := .error (.otherMeaning s.tag text asked)
    match s with
    | integer n =>
      if asked = s.tag then .ok s
      else if asked = "!!float" ∧ (Numeral.fitting? n).isSome then .ok (ofInteger n)
      else refusal
    | _ => if asked = s.tag then .ok s else refusal
  else .ok (string text)

/-! ### Tags -/

/-- What the tags of YAML itself start with. They are shown with two exclamation marks instead. -/
def stem : String := "tag:yaml.org,2002:"

/-- Whether a tag is one of YAML itself. -/
def isCore (tag : String) : Bool := tag.startsWith stem

/-- A tag as it is shown. -/
def shownTag (tag : String) : String :=
  if isCore tag then "!!" ++ String.ofList (tag.toList.drop stem.length) else tag

/-- What a scalar stands for, if its text has the meaning that its tag asks for. -/
def resolve (text tag : String) (implicit : Bool) : Except Refusal Scalar :=
  if tag.isEmpty then .ok (if implicit then ofText text true else string text)
  else if isCore tag then ofTagged (shownTag tag) text
  else .ok (string text)

end Scalar

end RobotGolf
