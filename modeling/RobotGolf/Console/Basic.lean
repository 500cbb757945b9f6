import RobotGolf.Console.Arguments
import RobotGolf.Console.Editor
import RobotGolf.Console.Report
import RobotGolf.Settings.Basic
import RobotGolf.Text.Blank
import RobotGolf.Text.Quoted
/-!
# The console

From a command line the console sets up a session. If there is a budget of steps, it is played at
once and reported. Otherwise the console takes orders, one in a line, until it is told to quit or
there is no more input. Lines can be edited while they are typed.

A session that is told to go plays by the clock, which ticks every hundredth of a second. The clock
is outside of this module: `Console.tick` says what happens at a tick, and `Console.watch` lets a
clock tick that needs no time.
-/

namespace RobotGolf

namespace Console

/-! ### Setting up -/

/-- How the program ended: its exit code and what it showed. -/
structure Finish where
  code : Nat
  text : String
  deriving DecidableEq, Repr

/-- Some lines as they are shown. -/
def textOf (lines : List String) : String := String.join (lines.map (· ++ "\n"))

/-- Setting up leads to the end of the program or to a session that waits for orders. -/
inductive Opening where
  | ended (finish : Finish)
  | ready (session : Session)

/-- How the program ends if nothing is to be played. Its usage is no part of what it shows. -/
def refuse : Refusal → Finish
  | .help => ⟨0, ""⟩
  | .misuse => ⟨2, ""⟩

/-- How the program ends if something could not be loaded. -/
def fail (message : String) : Finish := ⟨1, textOf (Notice.error.lines message)⟩

/-- How the program ends if a level could not be loaded. A level without room is not reported. -/
def failLevel : LoadError → Finish
  | .malformed e => fail ("Sorry, we were unable to parse the level: " ++ e.message ++ ".")
  | .oversized => ⟨2, ""⟩
  | e => fail ("Sorry, we were unable to operate on the level file: " ++ e.message)

/-- How the program ends if a solution could not be loaded. -/
def failSolution : SolutionError → Finish
  | .malformed e =>
    fail ("Sorry, we were unable to parse the program due to a syntax error: " ++ e.message)
  | e => fail ("Sorry, we were unable to operate on the program file: " ++ e.message)

/-- The settings for a command line. Flags take precedence, and are not checked. -/
def settings (files : Files) (flags : Flags) : Except SettingsError Settings :=
  match Settings.loadFile files flags.config with
  | .error e => .error e
  | .ok s =>
    .ok { s with
      trace := if flags.trace.isEmpty then s.trace else flags.trace
      stepBudget := if flags.run < 0 then s.stepBudget else flags.run }

/-- The end of a session that was played at once. -/
def finish (s : Session) : Finish := ⟨if s.failure.isSome then 1 else 0, textOf s.report⟩

/-- Sets a session up. A budget of steps is played at once; so are zero steps, if a flag asks for
them. -/
def launch (files : Files) (i : Invocation) : Opening :=
  match settings files i.flags with
  | .error e => .ended (fail e.message)
  | .ok s =>
    match Level.loadFile files i.level s.rows s.cols none with
    | .error e => .ended (failLevel e)
    | .ok level =>
      match Solution.loadFile s.limits files i.solution with
      | .error e => .ended (failSolution e)
      | .ok solution =>
        let session := (Session.new level solution s.fps).useRecords (some Records.empty)
        if 0 < s.stepBudget ∨ i.flags.run = 0 then
          .ended (finish (session.run s.stepBudget.toInt).2)
        else .ready session

/-! ### Orders -/

/-- What the console can be told. -/
inductive Order where
  | go
  | stop
  | next
  | reset
  | print
  | quit
  deriving DecidableEq, Repr

/-- The order that a text stands for. -/
def Order.ofText? : String → Option Order
  | "g" | "go" => some go
  | "s" | "stop" => some stop
  | "n" | "next" => some next
  | "r" | "reset" => some reset
  | "p" | "print" => some print
  | "q" | "quit" => some quit
  | _ => none

/-- What follows a line: some lines are shown and the session goes on, the session is played by the
clock, or the program ends. -/
inductive Reaction where
  | answer (lines : List String) (session : Session)
  | play
  | quit

/-- Carries an order out. -/
def obey (s : Session) : Order → Reaction
  | .go => .play
  | .stop => .answer [] s.stop
  | .next =>
    match s.step with
    | (true, s') => .answer s'.report s'
    | (false, s') => .answer (Notice.info.lines "program has ended") s'
  | .reset => .answer s.reset.report s.reset
  | .print => .answer s.report s
  | .quit => .quit

/-- Takes a line. White space around an order does not count, and a line of nothing else is
skipped. -/
def react (s : Session) (line : Bytes) : Reaction :=
  let text := Bytes.trim line
  if text.isEmpty then .answer [] s
  else
    match Order.ofText? (Bytes.toText text) with
    | some order => obey s order
    | none =>
      let message := "unknown command " ++ Quoted.quote text ++ ", use g, s, n, r, p or q"
      .answer (Notice.error.lines message) s

/-- What is shown before the first order. -/
def welcome (s : Session) : List String := Notice.info.lines "Welcome to herbert" ++ s.report

/-! ### The clock -/

/-- The time between two ticks, in nanoseconds. -/
def interval : Int := 10000000

/-- What happens at a tick: a session that has changed is reported. -/
def tick (s : Session) (now : Int) : List String × Session :=
  match s.update now with
  | (true, s') => (s'.report, s')
  | (false, s') => ([], s')

/-- Lets a session play until it stops running, but for no more than some number of ticks. -/
def watch (s : Session) (now : Int) : (ticks : Nat) → List String × Session
  | 0 => ([], s)
  | n + 1 =>
    if s.running then
      let shown := tick s (now + interval)
      let more := watch shown.2 (now + interval) n
      (shown.1 ++ more.1, more.2)
    else ([], s)

/-! ### Conversations -/

/-- The exit code after some keys and what is shown in answer to them, piece by piece, a session
that is told to go playing for no more than some number of ticks. If a key makes the program break
off, the exit code tells so. -/
def converse (ticks : Nat) (s : Session) (e : Editor) : List Key → Nat × List String
  | [] => (0, [])
  | key :: rest =>
    let goOn (shown : String) (s : Session) (e : Editor) : Nat × List String :=
      let (code, more) := converse ticks s e rest
      (code, shown :: more)
    match e.press key with
    | .quit => (0, [])
    | .crash => (2, [])
    | .edit e sent => goOn sent s e
    | .enter line e =>
      match react s (Bytes.ofChars line) with
      | .quit => (0, [])
      | .answer lines s => goOn (textOf lines) s e
      | .play =>
        let (lines, s) := watch (s.start 0) 0 ticks
        goOn (textOf lines) s e

/-- The whole program: arguments, files and an input lead to an exit code and to what is shown. -/
def run (ticks : Nat) (files : Files) (args : List String) (input : String) : Finish :=
  match Invocation.ofArguments args with
  | .error r => refuse r
  | .ok i =>
    match launch files i with
    | .ended finish => finish
    | .ready s =>
      let (code, shown) := converse ticks s Editor.empty (Key.ofInput input.toList)
      ⟨code, textOf (welcome s) ++ String.join shown⟩

end Console

end RobotGolf
