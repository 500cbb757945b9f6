/-!
# Markup in messages

Messages may be marked up: with tags like `<red>`, of which `</>` closes the latest one, and with
the sequences that set colours on a terminal. Nothing of that is shown. Tags count only in a text
with a closing tag, and are then dropped whether they mean anything or not.
-/

namespace RobotGolf.Markup

/-! ### Tags -/

/-- The characters of tags. -/
def isTagChar (c : Char) : Bool := c.isAlpha || c == '_' || c == '=' || c == ',' || c == ';'

/-- What follows a tag, of which the first character has been taken. -/
def afterTag? (cs : List Char) : Option (List Char) :=
  let body := match cs with
    | '/' :: rest => rest
    | _ => cs
  match body.dropWhile isTagChar with
  | '>' :: rest => some rest
  | _ => none

/-- Drops tags from at most `n` characters. -/
def dropTags : (n : Nat) → List Char → List Char
  | 0, cs => cs
  | _, [] => []
  | n + 1, '<' :: rest =>
    match afterTag? rest with
    | some behind => dropTags n behind
    | none => '<' :: dropTags n rest
  | n + 1, c :: rest => c :: dropTags n rest

/-- Whether there is a closing tag in a text. -/
def isMarkedUp : List Char → Bool
  | '<' :: '/' :: '>' :: _ => true
  | _ :: rest => isMarkedUp rest
  | [] => false

/-- A text without its tags, if these count. -/
def withoutTags (cs : List Char) : List Char := if isMarkedUp cs then dropTags cs.length cs else cs

/-- A text from which tags are dropped `n` times, as long as they count: when tags are dropped, what
stood around them may become a tag. -/
def withoutNestedTags : (n : Nat) → List Char → List Char
  | 0, cs => cs
  | n + 1, cs => if isMarkedUp cs then withoutNestedTags n (withoutTags cs) else cs

/-! ### Colours -/

/-- What follows a colour sequence, of which the first character has been taken. -/
def afterColour? : List Char → Option (List Char)
  | '[' :: cs =>
    let isParameter (c : Char) : Bool := c.isDigit || c == ';' || c == '?'
    match cs.takeWhile isParameter, cs.dropWhile isParameter with
    | _ :: _, 'm' :: rest => some rest
    | _, _ => none
  | _ => none

/-- Drops colour sequences from at most `n` characters. -/
def dropColours : (n : Nat) → List Char → List Char
  | 0, cs => cs
  | _, [] => []
  | n + 1, '\x1b' :: rest =>
    match afterColour? rest with
    | some behind => dropColours n behind
    | none => '\x1b' :: dropColours n rest
  | n + 1, c :: rest => c :: dropColours n rest

/-- A text without its colour sequences. -/
def withoutColours (cs : List Char) : List Char := dropColours cs.length cs

end RobotGolf.Markup
