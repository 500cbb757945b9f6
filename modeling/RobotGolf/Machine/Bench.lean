import RobotGolf.Machine.Frame
import RobotGolf.Machine.Scope
/-!
# A bench for scopes and frames

On a bench scopes and frames are made one by one, changed in place, and shared: a deferred value
refers to the scope that it captured by number, and so does a frame to its scope. Whatever is done
to a scope is seen through all that refer to it. The bench also has a stack of frames, on which a
frame may stand more than once.

References to scopes and frames that have not been made have no result.
-/

namespace RobotGolf

/-- Scopes and frames by number, and a stack of frames. References to scopes may be empty. -/
structure Bench where
  scopes : Array (Scope (Option Nat))
  frames : Array (Frame (Option Nat))
  stack : Stack Nat

namespace Bench

/-- A bench with nothing on it. -/
def empty : Bench := ⟨#[], #[], Stack.empty⟩

/-! ### Scopes -/

/-- Makes a scope and tells its number. -/
def addScope (b : Bench) (s : Scope (Option Nat)) : Nat × Bench :=
  (b.scopes.size, { b with scopes := b.scopes.push s })

/-- Whether a reference is empty or leads to a scope. -/
def isScope (b : Bench) (reference : Option Nat) : Bool :=
  match reference with
  | none => true
  | some n => n < b.scopes.size

/-- Whether the scope that a value captured, if any, is on the bench. -/
def holds (b : Bench) : Value (Option Nat) → Bool
  | .number _ => true
  | .deferred _ captured => b.isScope captured

/-- The value that a scope has for a name. -/
def find? (b : Bench) (scope : Nat) (name : Bytes) : Option (Option (Value (Option Nat))) :=
  b.scopes[scope]?.map (·.find? name)

/-- Binds a name in a scope. The result lists the new binding, if there is one, and the binding that
it replaces. -/
def bind? (b : Bench) (scope : Nat) (name : Bytes) (v : Value (Option Nat)) :
    Option ((Option Bytes × Option Bytes) × Bench) :=
  match b.scopes[scope]? with
  | none => none
  | some s =>
    if !b.holds v then none
    else
      let change := s.rebind name v
      let listed := Option.map fun (binding : Bytes × _) => Scope.tag binding.1 binding.2
      some ((listed change.made, listed change.replaced),
        { b with scopes := b.scopes.setIfInBounds scope change.scope })

/-- The text of a scope. -/
def renderScope? (b : Bench) (scope : Nat) : Option Bytes := b.scopes[scope]?.map Scope.render

/-! ### Frames -/

/-- Makes a frame and tells its number. -/
def addFrame? (b : Bench) (name : String) (body : List Element) (scope : Option Nat) :
    Option (Nat × Bench) :=
  if b.isScope scope then
    some (b.frames.size, { b with frames := b.frames.push (Frame.enter name body scope) })
  else none

/-- The text of a frame; an empty reference to its scope is shown as `<nil>`. -/
def renderFrame? (b : Bench) (frame : Nat) : Option Bytes :=
  b.frames[frame]?.map fun f => f.render ((f.scope.bind b.renderScope?).getD (.ofString "<nil>"))

/-- The next element of a frame, which moves on behind it. -/
def advance? (b : Bench) (frame : Nat) : Option (Element × Bench) :=
  match b.frames[frame]?.bind Frame.advance? with
  | none => none
  | some (e, f) => some (e, { b with frames := b.frames.setIfInBounds frame f })

/-! ### The stack -/

/-- Puts a frame on the stack. -/
def push? (b : Bench) (frame : Nat) : Option Bench :=
  if frame < b.frames.size then some { b with stack := b.stack.push frame } else none

/-- Takes the topmost frame off the stack. -/
def pop? (b : Bench) : Option (Nat × Bench) :=
  b.stack.top?.map fun frame => (frame, { b with stack := b.stack.pop })

/-- What is said when a frame is to be taken off an empty stack. -/
def emptyStackMessage : String := "attempt to pop frame from empty call stack"

/-- The text of the topmost frame. -/
def renderTop? (b : Bench) : Option Bytes := b.stack.top?.bind b.renderFrame?

/-- Takes all frames off the stack. -/
def clear (b : Bench) : Bench := { b with stack := Stack.empty }

end Bench

end RobotGolf
