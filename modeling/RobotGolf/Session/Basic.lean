import RobotGolf.Session.Records
import RobotGolf.Session.Solution
import RobotGolf.World.Basic
/-!
# Sessions

A session is a solution playing a level. Actions are executed one at a time (`step`), in batches
(`run`), or at the pace of a clock: a session that has been started executes an action with the
first update, and then at most one in every frame (`update`). A session is finished when the
evaluation of its solution has come to its end. `reset` starts it over.

A request to the evaluation may never be answered. An operation that would wait for the answer
leaves the session as it was.

Every action is scored. The session knows the points of its present state and the most points since
it was reset, and enters the points into a table of records, if it has been given one.
-/

namespace RobotGolf

/-- A solution playing a level. -/
structure Session where
  level : Level
  solution : Solution
  records : Option Records
  /-- The fingerprint of the level. -/
  fingerprint : String
  world : World
  /-- The evaluation of the solution, until it has come to its end. -/
  machine : Option Machine
  /-- The duration of a frame in nanoseconds. -/
  frame : Int64
  running : Bool
  /-- The next update executes an action in any case. -/
  due : Bool
  /-- When the present frame began. -/
  began : Int
  points : Int64
  bestPoints : Int64
  steps : Nat
  failure : Option Failure

namespace Session

/-! ### Starting over -/

/-- Starts a session over. Its table of records is kept. -/
def reset (s : Session) : Session :=
  { s with
    world := World.start s.level
    machine := some s.solution.machine
    running := false
    due := false
    began := 0
    points := 0
    bestPoints := 0
    steps := 0
    failure := none }

/-- The duration of a frame, in nanoseconds, at some frames per second. -/
def frameOf (fps : Int64) : Int64 := 1000000000 / if fps < 1 then 1 else fps

/-- A session that is ready to go. -/
def new (l : Level) (solution : Solution) (fps : Int64) : Session where
  level := l
  solution := solution
  records := none
  fingerprint := l.fingerprint
  world := World.start l
  machine := some solution.machine
  frame := frameOf fps
  running := false
  due := false
  began := 0
  points := 0
  bestPoints := 0
  steps := 0
  failure := none

/-- Has the session enter its points into a table, or into none. -/
def useRecords (s : Session) (r : Option Records) : Session := { s with records := r }

/-! ### Executing actions -/

/-- Whether the solution has no more actions. -/
def finished (s : Session) : Bool := s.machine.isNone

/-- Applies an action to the world and scores it. -/
def execute (s : Session) (m : Machine) (a : Action) : Session :=
  let world := s.world.step a
  let points := world.score (Int64.ofNat s.solution.bytes)
  { s with
    world := world
    machine := some m
    steps := s.steps + 1
    points := points
    bestPoints := if s.bestPoints < points then points else s.bestPoints
    records := s.records.map (·.submit s.fingerprint points) }

/-- Requests the next action and executes it. At the end of the evaluation the session is finished;
so it is if the machine gets stuck, which a solution read from a text does not bring about. Tells
whether the session has changed. There is no result if the request is never answered. -/
def move (s : Session) : Option (Bool × Session) :=
  match s.machine with
  | none => some (false, s)
  | some m =>
    match m.next with
    | none => none
    | some (.action a, m') => some (true, s.execute m' a)
    | some (_, m') =>
      some (true, { s with machine := none, running := false, failure := m'.failure })

/-- As `move`. A session whose request is never answered stays as it was. -/
def proceed (s : Session) : Bool × Session := s.move.getD (false, s)

/-- Executes an action, unless the session is running. Tells whether the session has changed. -/
def step (s : Session) : Bool × Session := if s.running then (false, s) else s.proceed

/-- Executes up to `n` actions. -/
def runSteps (s : Session) : Nat → Session
  | 0 => s
  | n + 1 => if s.finished then s else s.proceed.2.runSteps n

/-- Executes up to `n` actions and tells how many. -/
def run (s : Session) (n : Int) : Int × Session :=
  let s' := s.runSteps n.toNat
  ((s'.steps : Int) - s.steps, s')

/-! ### Running by the clock -/

/-- Sets the session running. The first update will execute an action. -/
def start (s : Session) (now : Int) : Session :=
  if s.running ∨ s.finished then s else { s with running := true, due := true, began := now }

/-- Stops a running session. -/
def stop (s : Session) : Session :=
  if s.running then { s with running := false, due := false, began := 0 } else s

/-- Executes an action if one is due or the present frame is over, and begins a new frame if it is.
Tells whether the session has changed. -/
def update (s : Session) (now : Int) : Bool × Session :=
  if !s.running then (false, s)
  else
    let elapsed := decide (s.frame.toInt < now - s.began)
    if s.due ∨ elapsed then
      match { s with due := false }.move with
      | none => (false, s)
      | some (changed, s') => (changed, if elapsed then { s' with began := now } else s')
    else (false, s)

/-! ### What a session shows -/

/-- The record for the session's level, or the most points since the last reset if there is no
table. -/
def record (s : Session) : Int64 :=
  match s.records with
  | none => s.bestPoints
  | some r => r.best s.fingerprint

/-- The first eight digits of the level's digest. -/
def levelId (s : Session) : String := String.ofList ((s.fingerprint.toList.drop 3).take 8)

/-- A name without its extension, which is what follows the last dot of its last component. -/
def withoutExtension (name : String) : String :=
  let ending := name.toList.reverse
  let component := ending.takeWhile (· != '/')
  if component.contains '.' then
    String.ofList ((ending.dropWhile (· != '.')).drop 1).reverse
  else name

/-- The name of the level for display. -/
def levelName (s : Session) : String := withoutExtension s.level.name

/-- Whether the level has been completed. -/
def completed (s : Session) : Bool := s.world.completed

/-- The grid as it is shown. -/
def grid (s : Session) : List String := s.world.snapshot

end Session

end RobotGolf
