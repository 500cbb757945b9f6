/-!
# Commands and actions

A program drives the robot by a sequence of actions. Nearly always an action is a command: go
forward, turn left or turn right. A parameter that is bound to a number and stands alone evaluates
to that number, and so an action may also be a number, which the robot ignores.

A command is a letter. Program trees that no source text spells may hold any octet as a command, and
the octet zero stands for no command at all.
-/

namespace RobotGolf

/-- A letter that the robot obeys or, if it does not know it, ignores. -/
structure Command where
  code : UInt8
  deriving DecidableEq, Repr

namespace Command

/-- No command. -/
def none : Command := ⟨0⟩

/-- One cell forward: `s`. -/
def forward : Command := ⟨115⟩

/-- A quarter turn to the left: `l`. -/
def turnLeft : Command := ⟨108⟩

/-- A quarter turn to the right: `r`. -/
def turnRight : Command := ⟨114⟩

/-- The code points of the three letters that are reserved for commands. -/
def isLetter (codePoint : Int) : Bool := codePoint == 115 || codePoint == 108 || codePoint == 114

/-- A command's letter. -/
def render (c : Command) : String :=
  if c = none then "<none>" else String.singleton (Char.ofNat c.code.toNat)

end Command

/-- What evaluating a program delivers, one at a time. -/
inductive Action where
  | command (c : Command)
  | number (n : Int)
  deriving DecidableEq, Repr

namespace Action

/-- Whether an action carries a command. -/
def isCommand : Action → Bool
  | command c => c != Command.none
  | number _ => false

/-- An action as it is listed; one that carries nothing is shown as `<nil>`. -/
def render : Action → String
  | command c => if c = Command.none then "<nil>" else c.render
  | number n => toString n

end Action

/-- The word for a count: the singular for one, the plural otherwise. -/
def pluralize (n : Int) (singular plural : String) : String := if n = 1 then singular else plural

end RobotGolf
