import RobotGolf.Program.Basic
import RobotGolf.Token
/-!
# Spelling a program

A tree is spelled in two steps: `symbols` lists the tokens of its canonical source text, each with
its kind and text, and `spell` writes their texts one after the other. Numbers are written in
decimal without leading zeros, an argument list that is empty is left out, and a sum shows the sign
of its first term if the term is negative or the sum is marked as signed.
-/

namespace RobotGolf

/-- A token of the canonical source text of a tree. -/
structure Symbol where
  kind : TokenKind
  text : String
  deriving DecidableEq, Repr

namespace Symbol

/-- The symbol for a plus. -/
def plus : Symbol := ⟨.plus, "+"⟩

/-- The symbol for a minus. -/
def minus : Symbol := ⟨.minus, "-"⟩

/-- The symbol that separates the members of a list. -/
def comma : Symbol := ⟨.comma, ","⟩

/-- The symbol between a procedure's head and its body. -/
def colon : Symbol := ⟨.colon, ":"⟩

/-- The symbol at the end of a definition. -/
def newline : Symbol := ⟨.newline, "\n"⟩

/-- The texts of some symbols, put together. -/
def spell (symbols : List Symbol) : String := String.ofList (symbols.flatMap (·.text.toList))

/-- A parenthesised list of spelled members, with commas between them; nothing if there are none. -/
def enclose : List (List Symbol) → List Symbol
  | [] => []
  | member :: members =>
    ⟨.leftParen, "("⟩ :: (member ++ members.flatMap (comma :: ·) ++ [⟨.rightParen, ")"⟩])

end Symbol

/-! ### Sums -/

/-- The symbol of a number or a parameter. A blank one is shown in place of a number. -/
def Operand.symbol : Operand → Symbol
  | literal n => ⟨.number, toString n⟩
  | parameter name => ⟨.parameter, name⟩
  | blank => ⟨.number, "<nil>"⟩

/-- A term with the sign in front of it, which is a minus, a plus, or nothing for a term that adds
and needs no sign. -/
def Term.symbols (t : Term) (signed : Bool) : List Symbol :=
  if t.negative then [Symbol.minus, t.operand.symbol]
  else if signed then [Symbol.plus, t.operand.symbol]
  else [t.operand.symbol]

/-- The symbols of a sum. -/
def Arithmetic.symbols (a : Arithmetic) : List Symbol :=
  match a.terms with
  | [] => []
  | t :: ts => t.symbols a.signed ++ ts.flatMap (·.symbols true)

/-! ### Elements and arguments -/

mutual
/-- The symbols of an element. -/
def Element.symbols : Element → List Symbol
  | .command c _ => [⟨.command, c.render⟩]
  | .parameter name _ => [⟨.parameter, name⟩]
  | .call callee args _ => ⟨.procedure, callee⟩ :: Symbol.enclose (Argument.listSymbols args)

/-- The symbols of an argument. -/
def Argument.symbols : Argument → List Symbol
  | .parameter name _ => [⟨.parameter, name⟩]
  | .quoted body _ => Element.sequenceSymbols body
  | .arithmetic sum => sum.symbols

/-- The symbols of a sequence of elements. -/
def Element.sequenceSymbols : List Element → List Symbol
  | [] => []
  | e :: rest => e.symbols ++ Element.sequenceSymbols rest

/-- The symbols of each of some arguments. -/
def Argument.listSymbols : List Argument → List (List Symbol)
  | [] => []
  | a :: rest => a.symbols :: Argument.listSymbols rest
end

/-! ### Definitions and programs -/

/-- The symbols of a definition, without the end of its line. -/
def Definition.symbols (d : Definition) : List Symbol :=
  ⟨.procedure, d.name⟩ :: Symbol.enclose (d.params.map fun name => [⟨.parameter, name⟩])
    ++ Symbol.colon :: Element.sequenceSymbols d.body

/-- The symbols of a program: every definition on a line of its own, then the main block. -/
def Program.symbols (p : Program) : List Symbol :=
  p.definitions.flatMap (fun d => d.symbols ++ [Symbol.newline])
    ++ Element.sequenceSymbols p.main

/-- The source text of an element. -/
def Element.render (e : Element) : String := Symbol.spell e.symbols

/-- The source text of a sequence of elements. -/
def Element.renderSequence (body : List Element) : String :=
  Symbol.spell (Element.sequenceSymbols body)

/-- The source text of an argument. -/
def Argument.render (a : Argument) : String := Symbol.spell a.symbols

/-- The source text of a definition. -/
def Definition.render (d : Definition) : String := Symbol.spell d.symbols

/-- The canonical source text of a program. -/
def Program.render (p : Program) : String := Symbol.spell p.symbols

end RobotGolf
