import RobotGolf.Command
import RobotGolf.Span
/-!
# Program trees

A program is a list of procedure definitions and a main block. A block is a sequence of elements:
commands, parameters and calls. The arguments of a call are parameters, quoted sequences or signed
sums of integers and parameters. Every node keeps the span of the source text that it was read from.

Trees need not come from a source text, so names are strings, numbers are integers of either sign
and operands may be left blank, though source text spells only single letters and natural numbers
and fills every place.
-/

namespace RobotGolf

/-- What a term of a sum adds or subtracts. -/
inductive Operand where
  | literal (n : Int)
  | parameter (name : String)
  | blank
  deriving DecidableEq, Repr

/-- The parameter of some name; without a name the operand is left blank. -/
def Operand.named (name : String) : Operand := if name.isEmpty then blank else parameter name

/-- A term of a sum, with its sign. -/
structure Term where
  negative : Bool
  operand : Operand
  deriving DecidableEq, Repr

/-- A signed sum of numbers and parameters. It is `signed` if it starts with a sign. -/
structure Arithmetic where
  signed : Bool
  terms : List Term
  span : Span
  deriving DecidableEq, Repr

mutual
/-- An element of a sequence. -/
inductive Element where
  | command (c : Command) (span : Span)
  | parameter (name : String) (span : Span)
  | call (callee : String) (args : List Argument) (span : Span)

/-- An argument of a call. -/
inductive Argument where
  | parameter (name : String) (span : Span)
  | quoted (body : List Element) (span : Span)
  | arithmetic (sum : Arithmetic)
end

mutual
/-- Tells whether two elements are equal. -/
def Element.decEq : (e e' : Element) → Decidable (e = e')
  | .command c s, .command c' s' => decidable_of_iff (c = c' ∧ s = s') (by simp)
  | .parameter name s, .parameter name' s' => decidable_of_iff (name = name' ∧ s = s') (by simp)
  | .call callee args s, .call callee' args' s' =>
    have := Argument.decEqList args args'
    decidable_of_iff (callee = callee' ∧ args = args' ∧ s = s') (by simp)
  | .command .., .parameter .. | .command .., .call .. | .parameter .., .command ..
  | .parameter .., .call .. | .call .., .command .. | .call .., .parameter .. => isFalse nofun

/-- Tells whether two sequences are equal. -/
def Element.decEqList : (body body' : List Element) → Decidable (body = body')
  | [], [] => isTrue rfl
  | e :: body, e' :: body' =>
    have := Element.decEq e e'
    have := Element.decEqList body body'
    decidable_of_iff (e = e' ∧ body = body') (by simp)
  | [], _ :: _ | _ :: _, [] => isFalse nofun

/-- Tells whether two arguments are equal. -/
def Argument.decEq : (a a' : Argument) → Decidable (a = a')
  | .parameter name s, .parameter name' s' => decidable_of_iff (name = name' ∧ s = s') (by simp)
  | .quoted body s, .quoted body' s' =>
    have := Element.decEqList body body'
    decidable_of_iff (body = body' ∧ s = s') (by simp)
  | .arithmetic sum, .arithmetic sum' => decidable_of_iff (sum = sum') (by simp)
  | .parameter .., .quoted .. | .parameter .., .arithmetic _ | .quoted .., .parameter ..
  | .quoted .., .arithmetic _ | .arithmetic _, .parameter .. | .arithmetic _, .quoted .. =>
    isFalse nofun

/-- Tells whether two lists of arguments are equal. -/
def Argument.decEqList : (args args' : List Argument) → Decidable (args = args')
  | [], [] => isTrue rfl
  | a :: args, a' :: args' =>
    have := Argument.decEq a a'
    have := Argument.decEqList args args'
    decidable_of_iff (a = a' ∧ args = args') (by simp)
  | [], _ :: _ | _ :: _, [] => isFalse nofun
end

instance : DecidableEq Element := Element.decEq

/-- A procedure definition. -/
structure Definition where
  name : String
  params : List String
  body : List Element
  span : Span
  deriving DecidableEq

/-- A program: its procedure definitions and its main block. -/
structure Program where
  definitions : List Definition
  main : List Element
  deriving DecidableEq

namespace Element

/-- Where an element stands in the source. -/
def span : Element → Span
  | command _ s => s
  | parameter _ s => s
  | call _ _ s => s

/-- The stretch of source that covers a sequence. -/
def cover (body : List Element) : Span := body.foldl (fun s e => s.extend e.span) Span.null

end Element

namespace Argument

/-- Where an argument stands in the source. -/
def span : Argument → Span
  | parameter _ s => s
  | quoted _ s => s
  | arithmetic sum => sum.span

end Argument

namespace Program

/-- The definition of a procedure: of several with one name, the first. -/
def find? (p : Program) (name : String) : Option Definition :=
  p.definitions.find? (·.name == name)

end Program

end RobotGolf
