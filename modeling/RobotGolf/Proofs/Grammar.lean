import Mathlib.Data.Nat.Digits.Defs
import RobotGolf.Program.Basic
import RobotGolf.Token
/-!
# The grammar of programs, as derivations

The documented grammar says which token sequences are programs:

    program   ::=  procdef* main
    procdef   ::=  PNAME [ '(' PARAM (',' PARAM)* ')' ] ':' (stmt | PARAM)+ EOL
    main      ::=  stmt+ EOF
    stmt      ::=  COMMAND  |  PNAME [ '(' arg (',' arg)* ')' ]
    arg       ::=  PARAM
              |    (stmt | PARAM)+   other than a lone PARAM
              |    expr              other than a lone unsigned PARAM
    expr      ::=  [ '-' | '+' ] term ( ('+' | '-') term )*
    term      ::=  NUM  |  PARAM

Here every nonterminal is a type, and its values are the **derivations**: trees whose leaves are the
tokens that are derived. `tokens` reads the leaves off from left to right, and `tree` is the program
tree of a derivation. A derivation knows nothing of how it might be found.

Two of the side conditions are shapes rather than hypotheses. A repetition is a first member and the
others, so it is never empty, and a quoted sequence is a lone statement or has two members at least,
so it is never a lone parameter. The third one, on sums, is a field. That the parameters of a
definition are pairwise distinct is a field as well.
-/

namespace RobotGolf.Grammar

/-- A token of a given kind: a leaf of a derivation. -/
@[ext]
structure Leaf (kind : TokenKind) where
  token : Token
  kind_eq : token.kind = kind

/-! ### Sums -/

/-- A plus or a minus. -/
inductive Sign where
  | plus (t : Leaf .plus)
  | minus (t : Leaf .minus)

namespace Sign

/-- The token of a sign. -/
def token : Sign → Token
  | plus t => t.token
  | minus t => t.token

/-- Whether a sign is a minus. -/
def negative : Sign → Bool
  | plus _ => false
  | minus _ => true

end Sign

/-- The value of digits in base ten. -/
def digitsValue (digits : Bytes) : ℕ :=
  Nat.ofDigits 10 (digits.reverse.map fun b ↦ b.toNat - 48)

/-- A number is spelled by digits, and perhaps a sign in front of them. -/
inductive Numeral : Bytes → ℤ → Prop where
  | digits {digits : Bytes} (nonempty : digits ≠ [])
      (all : ∀ b ∈ digits, Token.isDigit b = true) : Numeral digits (digitsValue digits)
  | plus {digits : Bytes} (nonempty : digits ≠ [])
      (all : ∀ b ∈ digits, Token.isDigit b = true) : Numeral (43 :: digits) (digitsValue digits)
  | minus {digits : Bytes} (nonempty : digits ≠ [])
      (all : ∀ b ∈ digits, Token.isDigit b = true) : Numeral (45 :: digits) (-digitsValue digits)

/-- `term ::= NUM | PARAM`. The text of a number is a numeral. -/
inductive Addend where
  | number (t : Leaf .number) (n : ℤ) (spelled : Numeral t.token.lexeme n)
  | parameter (t : Leaf .parameter)

namespace Addend

/-- The token of a term. -/
def token : Addend → Token
  | number t _ _ => t.token
  | parameter t => t.token

/-- The operand of a term. -/
def operand : Addend → Operand
  | number _ n _ => .literal n
  | parameter t => .parameter t.token.text

end Addend

/-- `expr ::= [ '-' | '+' ] term ( ('+' | '-') term )*`. -/
structure Sum where
  sign : Option Sign
  first : Addend
  others : List (Sign × Addend)

namespace Sum

/-- The tokens of the terms behind the first one. -/
def tailTokens (others : List (Sign × Addend)) : List Token :=
  others.flatMap fun x ↦ [x.1.token, x.2.token]

/-- The tokens of a sum. -/
def tokens (e : Sum) : List Token :=
  (e.sign.map Sign.token).toList ++ e.first.token :: tailTokens e.others

/-- Whether a sum is a single parameter without a sign. -/
def isLoneParameter : Sum → Bool
  | ⟨none, .parameter _, []⟩ => true
  | _ => false

/-- The terms behind the first one. -/
def tailTerms (others : List (Sign × Addend)) : List Term :=
  others.map fun x ↦ ⟨x.1.negative, x.2.operand⟩

/-- The terms of a sum, each with its sign. -/
def terms (e : Sum) : List Term :=
  ⟨e.sign.any Sign.negative, e.first.operand⟩ :: tailTerms e.others

/-- A span extended by those of some terms. -/
def extend (span : Span) (addends : List Addend) : Span :=
  addends.foldl (fun s a ↦ s.extend a.token.span) span

/-- The program tree of a sum, which covers its first token and all its terms. -/
def tree (e : Sum) : Arithmetic where
  signed := e.sign.isSome
  terms := e.terms
  span := extend (e.sign.elim e.first.token.span fun s ↦ s.token.span)
    (e.first :: e.others.map Prod.snd)

end Sum

/-! ### Statements and arguments -/

mutual
/-- `stmt ::= COMMAND | PNAME [ '(' arg (',' arg)* ')' ]`. -/
inductive Statement where
  | command (t : Leaf .command)
  | plain (name : Leaf .procedure)
  | applied (name : Leaf .procedure) (left : Leaf .leftParen) (args : Args)
      (right : Leaf .rightParen)

/-- `stmt | PARAM`. -/
inductive Item where
  | statement (s : Statement)
  | parameter (t : Leaf .parameter)

/-- `(stmt | PARAM)*`. -/
inductive Items where
  | nil
  | cons (i : Item) (others : Items)

/-- `arg`. A quoted sequence is a lone statement, or two members and any number of others. -/
inductive Arg where
  | reference (t : Leaf .parameter)
  | quotedOne (s : Statement)
  | quotedMany (first second : Item) (others : Items)
  | sum (e : Sum) (notLone : e.isLoneParameter = false)

/-- `arg (',' arg)*`. -/
inductive Args where
  | last (a : Arg)
  | cons (a : Arg) (comma : Leaf .comma) (others : Args)
end

mutual
/-- The tokens of a statement. -/
def Statement.tokens : Statement → List Token
  | .command t => [t.token]
  | .plain name => [name.token]
  | .applied name left args right =>
    name.token :: left.token :: (args.tokens ++ [right.token])

/-- The tokens of a statement or parameter. -/
def Item.tokens : Item → List Token
  | .statement s => s.tokens
  | .parameter t => [t.token]

/-- The tokens of a sequence. -/
def Items.tokens : Items → List Token
  | .nil => []
  | .cons i others => i.tokens ++ others.tokens

/-- The tokens of an argument. -/
def Arg.tokens : Arg → List Token
  | .reference t => [t.token]
  | .quotedOne s => s.tokens
  | .quotedMany first second others => first.tokens ++ (second.tokens ++ others.tokens)
  | .sum e _ => e.tokens

/-- The tokens of some arguments, commas included. -/
def Args.tokens : Args → List Token
  | .last a => a.tokens
  | .cons a comma others => a.tokens ++ comma.token :: others.tokens
end

mutual
/-- The element that a statement derives. -/
def Statement.tree : Statement → Element
  | .command t => .command ⟨t.token.lexeme.headD 0⟩ t.token.span
  | .plain name => .call name.token.text [] name.token.span
  | .applied name _ args right =>
    .call name.token.text args.tree (name.token.span.extend right.token.span)

/-- The element that a statement or parameter derives. -/
def Item.tree : Item → Element
  | .statement s => s.tree
  | .parameter t => .parameter t.token.text t.token.span

/-- The elements that a sequence derives. -/
def Items.tree : Items → List Element
  | .nil => []
  | .cons i others => i.tree :: others.tree

/-- The argument that is derived. -/
def Arg.tree : Arg → Argument
  | .reference t => .parameter t.token.text t.token.span
  | .quotedOne s => .quoted [s.tree] (Element.cover [s.tree])
  | .quotedMany first second others =>
    .quoted (first.tree :: second.tree :: others.tree)
      (Element.cover (first.tree :: second.tree :: others.tree))
  | .sum e _ => .arithmetic e.tree

/-- The arguments that are derived. -/
def Args.tree : Args → List Argument
  | .last a => [a.tree]
  | .cons a _ others => a.tree :: others.tree
end

/-! ### Definitions and programs -/

/-- `'(' PARAM (',' PARAM)* ')'`, the parameters being pairwise distinct. -/
structure Params where
  left : Leaf .leftParen
  first : Leaf .parameter
  others : List (Leaf .comma × Leaf .parameter)
  right : Leaf .rightParen
  distinct : (first.token.text :: others.map fun x ↦ x.2.token.text).Nodup

namespace Params

/-- The names of the parameters. -/
def names (ps : Params) : List String :=
  ps.first.token.text :: ps.others.map fun x ↦ x.2.token.text

/-- The tokens of a parameter list. -/
def tokens (ps : Params) : List Token :=
  ps.left.token :: ps.first.token ::
    (ps.others.flatMap (fun x ↦ [x.1.token, x.2.token]) ++ [ps.right.token])

end Params

/-- `procdef`. -/
structure Procedure where
  name : Leaf .procedure
  params : Option Params
  colon : Leaf .colon
  first : Item
  others : Items
  newline : Leaf .newline

namespace Procedure

/-- The tokens of a definition, the end of its line included. -/
def tokens (d : Procedure) : List Token :=
  d.name.token :: ((d.params.map Params.tokens).getD [] ++
    d.colon.token :: (d.first.tokens ++ (d.others.tokens ++ [d.newline.token])))

/-- The elements of the body. -/
def body (d : Procedure) : List Element := d.first.tree :: d.others.tree

/-- The definition that is derived. It covers its name and its body. -/
def tree (d : Procedure) : Definition where
  name := d.name.token.text
  params := (d.params.map Params.names).getD []
  body := d.body
  span := d.name.token.span.extend (d.body.getLast (by simp [body])).span

end Procedure

/-- `program ::= procdef* main`, with `main ::= stmt+ EOF`. -/
structure Sentence where
  procedures : List Procedure
  first : Statement
  others : List Statement
  finish : Leaf .finish

namespace Sentence

/-- The tokens of a program, up to and including the end of the text. -/
def tokens (d : Sentence) : List Token :=
  d.procedures.flatMap Procedure.tokens ++
    ((d.first :: d.others).flatMap Statement.tokens ++ [d.finish.token])

/-- The program tree of a derivation. -/
def tree (d : Sentence) : Program where
  definitions := d.procedures.map Procedure.tree
  main := (d.first :: d.others).map Statement.tree

end Sentence

end RobotGolf.Grammar
