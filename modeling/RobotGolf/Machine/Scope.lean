import RobotGolf.Program.Spelling
/-!
# Values and scopes

A parameter is bound to a number, or to a sequence that was quoted and has not been run. Such a
deferred sequence remembers the scope that it was quoted in. How a scope is remembered is left open:
`Value κ` and `Scope κ` hold captured scopes as values of a type `κ`. The machine remembers the
scope itself (`Env`).

A scope is a finite map from names to values. Names are octets, whether or not they spell a text;
those of the parameters of a program do. The empty name is never bound. A scope prints its bindings
in the order of their text, whatever the order in which they were made.
-/

namespace RobotGolf

/-- What a parameter is bound to. -/
inductive Value (κ : Type) where
  | number (n : Int)
  | deferred (body : List Element) (captured : κ)

namespace Value

variable {κ : Type}

/-- Whether a value is the number zero. -/
def isZero : Value κ → Bool
  | number n => n == 0
  | deferred _ _ => false

/-- A value as messages show it. -/
def render : Value κ → String
  | number n => toString n
  | deferred body _ => Element.renderSequence body

end Value

/-- A named set of bindings. Names are bound at most once. -/
structure Scope (κ : Type) where
  name : Bytes
  bindings : List (Bytes × Value κ)

namespace Scope

variable {κ : Type}

/-- A scope without bindings. -/
def empty (name : Bytes) : Scope κ := ⟨name, []⟩

/-- The scope of the main block. -/
def globals : Scope κ := empty (.ofString "globals")

/-- The value of a name. -/
def find? (s : Scope κ) (name : Bytes) : Option (Value κ) := s.bindings.lookup name

/-- Binds a name, replacing what it was bound to. The empty name cannot be bound. -/
def bind (s : Scope κ) (name : Bytes) (v : Value κ) : Scope κ :=
  if name = [] then s else ⟨s.name, (name, v) :: s.bindings.filter (·.1 != name)⟩

/-- What binding a name comes to: the scope behind it, the new binding, if there is one, and the
binding that it replaces. -/
structure Rebinding (κ : Type) where
  scope : Scope κ
  made : Option (Bytes × Value κ)
  replaced : Option (Bytes × Value κ)

/-- Binds a name and tells of the bindings that come and go. -/
def rebind (s : Scope κ) (name : Bytes) (v : Value κ) : Rebinding κ :=
  if name = [] then ⟨s, none, none⟩
  else ⟨s.bind name v, some (name, v), s.bindings.find? (·.1 == name)⟩

/-- A binding as it is listed. -/
def tag (name : Bytes) (v : Value κ) : Bytes := name ++ .ofString ("=" ++ v.render)

/-- The listed bindings in the order of their text. -/
def tags (s : Scope κ) : List Bytes :=
  (s.bindings.map fun b => tag b.1 b.2).mergeSort fun a b => decide (a ≤ b)

/-- A scope with all its bindings. -/
def render (s : Scope κ) : Bytes :=
  .ofString "<scope " ++ (Bytes.ofString " ").intercalate (s.name :: s.tags) ++ .ofString ">"

end Scope

/-- A scope whose deferred values hold the very scopes that they were quoted in. -/
inductive Env where
  | mk (scope : Scope Env)

namespace Env

/-- The bindings. -/
def scope : Env → Scope Env
  | mk s => s

/-- The value of a parameter. -/
def find? (e : Env) (name : String) : Option (Value Env) := e.scope.find? (.ofString name)

end Env

end RobotGolf
