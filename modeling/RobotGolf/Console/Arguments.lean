import RobotGolf.Text.Numeral
/-!
# Arguments of the command line

The command line names a level and a solution, in this order, and flags in front of them. A flag is
a name behind one or two dashes. Its value stands behind an equals sign or is the next argument.
Flags end at the first argument that is none, or behind two dashes that stand alone.
-/

namespace RobotGolf

/-- The values of the flags. -/
structure Flags where
  /-- The file with the settings, or the empty text for none. -/
  config : String
  /-- The level of tracing, or the empty text if the settings decide. -/
  trace : String
  /-- The number of steps to play, or a number below zero if the settings decide. -/
  run : Int64
  deriving DecidableEq, Repr

/-- What is to be played, and how. -/
structure Invocation where
  flags : Flags
  level : String
  solution : String
  deriving DecidableEq, Repr

/-- Why nothing is to be played: help was asked for, or the arguments are not understood. -/
inductive Refusal where
  | help
  | misuse
  deriving DecidableEq, Repr

/-! ### Single arguments -/

/-- What an argument looks like. -/
inductive ArgumentShape where
  | operand
  | terminator
  | malformed
  | flag (name : String) (value : Option String)
  deriving DecidableEq, Repr

namespace ArgumentShape

/-- The shape of a flag, from what stands behind its dashes. -/
def ofName (cs : List Char) : ArgumentShape :=
  match cs with
  | [] | '-' :: _ | '=' :: _ => malformed
  | _ =>
    match cs.dropWhile (· != '=') with
    | [] => flag (String.ofList cs) none
    | _ :: value => flag (String.ofList (cs.takeWhile (· != '='))) (some (String.ofList value))

/-- The shape of an argument. A dash that stands alone starts no flag. -/
def ofString (arg : String) : ArgumentShape :=
  match arg.toList with
  | ['-'] => operand
  | ['-', '-'] => terminator
  | '-' :: '-' :: name => ofName name
  | '-' :: name => ofName name
  | _ => operand

end ArgumentShape

/-! ### All arguments -/

namespace Flags

/-- The flags that hold unless others are given. -/
def standard : Flags := ⟨"", "", -1⟩

/-- The names of all flags. -/
def names : List String := ["config", "trace", "run"]

/-- Why a name is refused as a flag, if it is. -/
def refusal? (name : String) : Option Refusal :=
  if names.contains name then none
  else if name = "h" ∨ name = "help" then some .help
  else some .misuse

/-- Changes the flag with a given name. -/
def set (f : Flags) (name value : String) : Except Refusal Flags :=
  match name with
  | "config" => .ok { f with config := value }
  | "trace" => .ok { f with trace := value }
  | _ =>
    match Numeral.separated? value.toList with
    | some n => .ok { f with run := n }
    | none => .error .misuse

/-- Reads flags up to their end, and returns the arguments behind them. -/
def read (f : Flags) : List String → Except Refusal (Flags × List String)
  | [] => .ok (f, [])
  | arg :: rest =>
    match ArgumentShape.ofString arg with
    | .operand => .ok (f, arg :: rest)
    | .terminator => .ok (f, rest)
    | .malformed => .error .misuse
    | .flag name (some value) =>
      match refusal? name with
      | some r => .error r
      | none =>
        match f.set name value with
        | .error r => .error r
        | .ok g => g.read rest
    | .flag name none =>
      match refusal? name with
      | some r => .error r
      | none =>
        match rest with
        | [] => .error .misuse
        | value :: behind =>
          match f.set name value with
          | .error r => .error r
          | .ok g => g.read behind

end Flags

/-- Reads a command line. -/
def Invocation.ofArguments (args : List String) : Except Refusal Invocation :=
  match Flags.standard.read args with
  | .error r => .error r
  | .ok (flags, [level, solution]) => .ok ⟨flags, level, solution⟩
  | .ok _ => .error .misuse

end RobotGolf
