import RobotGolf.Machine.Frame
import RobotGolf.Machine.Scope
/-!
# The machine that runs programs

Evaluating a program delivers actions one at a time, on request. The machine keeps the frames that
are being run on a stack, and `step` looks at the element ahead of the topmost one. A command is
delivered. A parameter that is bound to a deferred sequence enters that sequence, in the scope that
it was quoted in, and a call enters the body of its procedure in a fresh scope, unless one of its
arguments is the number zero: then the call is skipped. A frame with nothing left to run is taken
off the stack, and a frame that has run out is dropped before another one is put on top of it, so
that calls in last position do not pile up.

Programs that go on entering frames without delivering anything are stopped by two limits: on the
size of the stack, and on the number of frames entered for one action. These frames are counted in a
machine word, which wraps around. A count that is compared with the largest number is therefore
never found to be too large, so the largest limit on frames for one action is none at all.

A sum with a blank operand has no value. A call that asks for one gets the machine stuck: the
request is not answered, which is no end of the evaluation, and the next request goes on behind the
call.

`next` repeats `step` until an action is delivered, the evaluation has ended or the machine is
stuck. Under the largest limit this may never come about, and a request that is never answered has
no result.
-/

namespace RobotGolf

/-! ### Limits and failures -/

/-- The limits of an evaluation. -/
structure Limits where
  depth : Int64
  silent : Int64
  deriving DecidableEq, Repr

namespace Limits

/-- The limits that hold unless others are asked for. -/
def standard : Limits := ⟨1000000, 1000000⟩

/-- Sets the limit on the size of the stack; a number that is not positive is ignored. -/
def withDepth (l : Limits) (n : Int64) : Limits := if 0 < n then { l with depth := n } else l

/-- Sets the limit on frames entered for one action; a number that is not positive is ignored. -/
def withSilent (l : Limits) (n : Int64) : Limits := if 0 < n then { l with silent := n } else l

end Limits

/-- Why an evaluation failed. -/
inductive Failure where
  | unboundParameter (name : String)
  | missingProcedure (name : String)
  | arity (procedure : String) (params args : Nat)
  | numberAmongStatements (parameter : String) (n : Int)
  | sequenceInArithmetic (parameter spelling : String)
  | recursion (depth : Nat) (calls : Int64)
  deriving DecidableEq, Repr

namespace Failure

/-- The text for an evaluation that went too deep. -/
def recursionMessage (depth calls : Int) : String :=
  "recursion too deep (depth " ++ toString depth ++ ", " ++ toString calls
    ++ " calls without a command)"

/-- The wording of a failure. -/
def message : Failure → String
  | unboundParameter name => "unbound parameter: " ++ name
  | missingProcedure name => "missing procedure: " ++ name
  | arity procedure params args =>
    procedure ++ " takes " ++ toString params ++ " " ++ pluralize params "argument" "arguments"
      ++ " but " ++ toString args ++ " " ++ pluralize args "was" "were" ++ " given"
  | numberAmongStatements parameter n =>
    "parameter " ++ parameter
      ++ " does not evaluate to a command s, l or r or a procedure call: " ++ toString n
  | sequenceInArithmetic parameter spelling =>
    "parameter " ++ parameter ++ " does not evaluate to a number: " ++ spelling
  | recursion depth calls => recursionMessage depth calls.toInt

end Failure

/-! ### Arguments -/

/-- Why an argument has no value. -/
inductive NoValue where
  | failure (f : Failure)
  | blank
  deriving DecidableEq, Repr

/-- The value of a parameter. -/
def Env.lookup (e : Env) (name : String) : Except Failure (Value Env) :=
  match e.find? name with
  | none => .error (.unboundParameter name)
  | some v => .ok v

/-- The number that an operand stands for. -/
def Operand.value (e : Env) : Operand → Except NoValue Int
  | literal n => .ok n
  | parameter name =>
    match e.lookup name with
    | .error failure => .error (.failure failure)
    | .ok (.number n) => .ok n
    | .ok (.deferred body _) =>
      .error (.failure (.sequenceInArithmetic name (Element.renderSequence body)))
  | blank => .error .blank

/-- The sum of some terms and what was summed up before, from left to right. -/
def Term.sum (e : Env) (before : Int) : List Term → Except NoValue Int
  | [] => .ok before
  | t :: rest =>
    match t.operand.value e with
    | .error cause => .error cause
    | .ok n => Term.sum e (if t.negative then before - n else before + n) rest

/-- The value of an argument in the scope of the caller. -/
def Argument.value (e : Env) : Argument → Except NoValue (Value Env)
  | .parameter name _ =>
    match e.lookup name with
    | .error failure => .error (.failure failure)
    | .ok v => .ok v
  | .quoted body _ => .ok (.deferred body e)
  | .arithmetic sum =>
    match Term.sum e 0 sum.terms with
    | .error cause => .error cause
    | .ok n => .ok (.number n)

/-- Binds parameters to the values of arguments, from left to right. The first argument that is the
number zero ends this without a result. -/
def Argument.bindAll (e : Env) (target : Scope Env) :
    List String → List Argument → Except NoValue (Option (Scope Env))
  | name :: names, a :: args =>
    match a.value e with
    | .error cause => .error cause
    | .ok v =>
      if v.isZero then .ok none
      else Argument.bindAll e (target.bind (.ofString name) v) names args
  | _, _ => .ok (some target)

/-! ### The machine -/

/-- An evaluation under way. -/
structure Machine where
  program : Program
  limits : Limits
  stack : Stack (Frame Env)
  failure : Option Failure
  /-- Actions delivered. -/
  count : Nat
  /-- Frames entered since the last action. -/
  silent : Int64

/-- What one step of the machine comes to. -/
inductive Outcome where
  | quiet (m : Machine)
  | action (a : Action) (m : Machine)
  | ended (m : Machine)
  | stuck (m : Machine)

namespace Machine

/-- The evaluation of a program, before its first step. -/
def start (program : Program) (limits : Limits) : Machine where
  program := program
  limits := limits
  stack := Stack.empty.push (Frame.enter "main" program.main (.mk Scope.globals))
  failure := none
  count := 0
  silent := 0

/-- Nothing is left on the stack. -/
def done (m : Machine) : Bool := m.stack.isEmpty

/-- Gives the evaluation up. -/
def abandon (m : Machine) : Machine := { m with stack := Stack.empty }

/-- Ends the evaluation with a failure. -/
def fail (m : Machine) (failure : Failure) : Machine :=
  { m with stack := Stack.empty, failure := some failure }

/-- Counts an action that is delivered. -/
def deliver (m : Machine) : Machine := { m with count := m.count + 1, silent := 0 }

/-- The stack without its topmost frame, if that has run out. -/
def dropExhausted (stack : Stack (Frame Env)) : Stack (Frame Env) :=
  match stack.top? with
  | none => stack
  | some f => if f.exhausted then stack.pop else stack

/-- Enters a frame. A frame that has run out makes room for it. -/
def enter (m : Machine) (f : Frame Env) : Outcome :=
  let silent := m.silent + 1
  if m.limits.silent < silent then
    .ended ({ m with silent := silent }.fail (.recursion m.stack.size silent))
  else
    let stack := dropExhausted m.stack
    if m.limits.depth.toInt ≤ stack.size then
      .ended ({ m with silent := silent }.fail (.recursion stack.size silent))
    else .quiet { m with silent := silent, stack := stack.push f }

/-- Runs a parameter that stands among statements of the frame `f`. -/
def runParameter (m : Machine) (f : Frame Env) (name : String) : Outcome :=
  match f.scope.lookup name with
  | .error failure => .ended (m.fail failure)
  | .ok (.deferred body captured) => m.enter (Frame.enter name body captured)
  | .ok (.number n) =>
    if f.sole then .action (.number n) m.deliver
    else .ended (m.fail (.numberAmongStatements name n))

/-- Runs a call in the scope `e`. -/
def runCall (m : Machine) (e : Env) (callee : String) (args : List Argument) : Outcome :=
  match m.program.find? callee with
  | none => .ended (m.fail (.missingProcedure callee))
  | some d =>
    if args.length ≠ d.params.length then
      .ended (m.fail (.arity d.name d.params.length args.length))
    else
      match Argument.bindAll e (Scope.empty (.ofString d.name)) d.params args with
      | .error (.failure failure) => .ended (m.fail failure)
      | .error .blank => .stuck m
      | .ok none => .quiet m
      | .ok (some scope) => m.enter (Frame.enter d.name d.body (.mk scope))

/-- Runs an element of the frame `f`. -/
def runElement (m : Machine) (f : Frame Env) : Element → Outcome
  | .command c _ => .action (.command c) m.deliver
  | .parameter name _ => m.runParameter f name
  | .call callee args _ => m.runCall f.scope callee args

/-- One step: takes a frame off the stack that has run out, or runs the element ahead. -/
def step (m : Machine) : Outcome :=
  match m.stack.top? with
  | none => .ended m
  | some f =>
    match f.advance? with
    | none => .quiet { m with stack := m.stack.pop }
    | some (e, g) => { m with stack := m.stack.pop.push g }.runElement g e

/-! ### Requests -/

/-- The answer to a request. -/
inductive Reply where
  | action (a : Action)
  | ended
  | stuck
  deriving DecidableEq, Repr

/-- Runs the machine until it delivers an action, has come to its end or is stuck. There is no
result if none of this ever happens. -/
def next (m : Machine) : Option (Reply × Machine) :=
  match m.step with
  | .ended m' => some (.ended, m')
  | .action a m' => some (.action a, m')
  | .stuck m' => some (.stuck, m')
  -- With `apply` the definition does not hold the place of the call in this file.
  | .quiet m' => by apply next; exact m'
partial_fixpoint

/-- Requests `n` actions, `before` holding those delivered, latest first. -/
def takeOnto (m : Machine) (before : List Action) : Nat → Option (List Action) × Machine
  | 0 => (some before.reverse, m)
  | n + 1 =>
    match m.next with
    | none => (none, m)
    | some (.ended, m') => (some before.reverse, m')
    | some (.stuck, m') => (none, m')
    | some (.action a, m') => takeOnto m' (a :: before) n

/-- The actions delivered by `n` requests, or fewer if the evaluation ends before. There are none if
the machine gets stuck on the way, or if a request on the way is never answered. -/
def take (m : Machine) (n : Nat) : Option (List Action) × Machine := m.takeOnto [] n

/-- The number of actions for which room can be reserved. -/
def capacity : Int := Int.pow 2 44

/-- As `take`, for a request of any size: a negative one is a request for nothing, and one for more
than there can be room for is refused. -/
def take? (m : Machine) (n : Int) : Option (List Action) × Machine :=
  if capacity < n then (none, m) else m.take n.toNat

end Machine

/-- The texts of some actions, put together. -/
def Action.format (actions : List Action) : String := String.join (actions.map Action.render)

end RobotGolf
