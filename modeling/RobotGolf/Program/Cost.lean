import RobotGolf.Program.Basic
/-!
# The byte cost of a program

Programs are scored by their size in bytes. Every procedure name, parameter and command counts one
byte. In a sum every operator goes with an operand, so a sum of `t` tokens counts half of `t`,
rounded up. Parentheses, commas, colons and line ends are free.
-/

namespace RobotGolf

namespace Arithmetic

/-- The number of tokens of a sum, signs and operators included. -/
def tokenCount (a : Arithmetic) : Int :=
  2 * (a.terms.length : Int) - 1 + if a.signed then 1 else 0

/-- The cost of a sum. -/
def cost (a : Arithmetic) : Nat := (a.tokenCount + 1).toNat / 2

end Arithmetic

mutual
/-- The cost of an element. -/
def Element.cost : Element → Nat
  | .command _ _ => 1
  | .parameter _ _ => 1
  | .call _ args _ => 1 + Argument.listCost args

/-- The cost of an argument. -/
def Argument.cost : Argument → Nat
  | .parameter _ _ => 1
  | .quoted body _ => Element.sequenceCost body
  | .arithmetic sum => sum.cost

/-- The cost of a sequence of elements. -/
def Element.sequenceCost : List Element → Nat
  | [] => 0
  | e :: rest => e.cost + Element.sequenceCost rest

/-- The cost of the arguments of a call. -/
def Argument.listCost : List Argument → Nat
  | [] => 0
  | a :: rest => a.cost + Argument.listCost rest
end

/-- The cost of a definition: its name, its parameters and its body. -/
def Definition.cost (d : Definition) : Nat := 1 + d.params.length + Element.sequenceCost d.body

/-- The cost of a program. -/
def Program.cost (p : Program) : Nat :=
  p.definitions.foldr (fun d rest => d.cost + rest) (Element.sequenceCost p.main)

end RobotGolf
