/-!
# Timestamps

A timestamp is a date, perhaps with a time of day. A year has four digits, all other numbers one or
two. A time behind the letter T has a zone, which is the letter Z or an offset in hours and minutes,
and a time behind blanks has none. Seconds may have decimal places. Dates have to exist.
-/

namespace RobotGolf.Timestamp

/-- Takes a number of one or two digits, at most `limit`. -/
def number? (limit : Nat) : List Char → Option (Nat × List Char)
  | [] => none
  | c :: rest =>
    let (digits, behind) := match rest with
      | d :: more => if d.isDigit then ([c, d], more) else ([c], rest)
      | [] => ([c], rest)
    let n := digits.foldl (fun n c => 10 * n + (c.toNat - 48)) 0
    if c.isDigit ∧ n ≤ limit then some (n, behind) else none

/-- Takes a character. -/
def mark? (mark : Char) : List Char → Option (List Char)
  | [] => none
  | c :: rest => if c = mark then some rest else none

/-- Number of days in a month. -/
def daysIn (year month : Nat) : Nat :=
  if month = 2 then
    if year % 4 = 0 ∧ (year % 100 ≠ 0 ∨ year % 400 = 0) then 29 else 28
  else if month = 4 ∨ month = 6 ∨ month = 9 ∨ month = 11 then 30
  else 31

/-- Takes a date. -/
def date? (cs : List Char) : Option (List Char) := do
  let (digits, rest) := cs.span Char.isDigit
  guard (digits.length = 4)
  let year := digits.foldl (fun n c => 10 * n + (c.toNat - 48)) 0
  let (month, rest) ← number? 12 (← mark? '-' rest)
  let (day, rest) ← number? 31 (← mark? '-' rest)
  guard (0 < month ∧ 0 < day ∧ day ≤ daysIn year month)
  return rest

/-- Takes the decimal places of seconds, if there are some behind a point or a comma. -/
def fraction (cs : List Char) : List Char :=
  match cs with
  | point :: c :: rest =>
    if (point = '.' ∨ point = ',') ∧ c.isDigit then rest.dropWhile Char.isDigit else cs
  | _ => cs

/-- Takes a time of day. -/
def time? (cs : List Char) : Option (List Char) := do
  let (_, rest) ← number? 23 cs
  let (_, rest) ← number? 59 (← mark? ':' rest)
  let (_, rest) ← number? 59 (← mark? ':' rest)
  return fraction rest

/-- Whether this is a zone. -/
def isZone : List Char → Bool
  | ['Z'] => true
  | [sign, a, b, ':', c, d] =>
    (sign = '+' ∨ sign = '-') && [a, b, c, d].all Char.isDigit && (number? 24 [a, b]).isSome
      && (number? 60 [c, d]).isSome
  | _ => false

/-- What may follow a date: nothing, or a time of day. -/
def isTimeOfDay : List Char → Bool
  | [] => true
  | c :: rest =>
    if c = 'T' ∨ c = 't' then
      match time? rest with
      | none => false
      | some zone => isZone zone
    else if c = ' ' then time? (rest.dropWhile (· == ' ')) == some []
    else false

/-- Whether a text is a timestamp. -/
def isTimestamp (text : String) : Bool :=
  match date? text.toList with
  | none => false
  | some rest => isTimeOfDay rest

end RobotGolf.Timestamp
