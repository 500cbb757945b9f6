import RobotGolf.Console.Basic
/-!
# The command line program

This module connects the console with files, standard input and output, and the clock of the
machine.
-/

namespace RobotGolf

namespace Main

/-- How the program is used. -/
def usage : List String :=
  ["Usage: herbert [options] level-file program-file",
    "  -config string",
    "    \tConfiguration file (YAML)",
    "  -run int",
    "    \tRun n steps and exit (default -1)",
    "  -trace string",
    "    \tTrace level [Debug|Info|Error]"]

/-- Opens a file and reads it. -/
def openFile (name : String) : IO (Except String Feed) := do
  try
    let content ← IO.FS.readBinFile name
    return .ok (Feed.ofBytes content.toList)
  catch
    | .noFileOrDirectory .. => return .error (Files.missing name)
    | .permissionDenied .. => return .error ("open " ++ name ++ ": permission denied")
    | .inappropriateType .. => return .ok (Files.directory name)
    | e => return .error ("open " ++ name ++ ": " ++ toString e)

/-- Opens all files that an invocation names. -/
def openFiles (i : Invocation) : IO Files := do
  let names := [i.flags.config, i.level, i.solution]
  let opened ← names.mapM fun name => do return (name, ← openFile name)
  return fun name => (opened.lookup name).getD (.error (Files.missing name))

/-- Shows a text. -/
def print (text : String) : IO Unit := do
  IO.print text
  (← IO.getStdout).flush

/-- Lets a session play in real time. -/
partial def play (s : Session) : IO Session := do
  if s.running then
    IO.sleep 10
    let (lines, s) := Console.tick s (← IO.monoNanosNow)
    print (Console.textOf lines)
    play s
  else return s

/-- Takes some keys. Behind the end of the program there is its exit code. -/
def take (s : Session) (e : Console.Editor) :
    List Console.Key → IO (Except UInt32 (Session × Console.Editor))
  | [] => return .ok (s, e)
  | key :: rest => do
    match e.press key with
    | .quit => return .error 0
    | .crash => return .error 2
    | .edit e sent =>
      print sent
      take s e rest
    | .enter line e =>
      match Console.react s (Bytes.ofChars line) with
      | .quit => return .error 0
      | .answer lines s =>
        print (Console.textOf lines)
        take s e rest
      | .play => take (← play (s.start (← IO.monoNanosNow))) e rest

/-- Takes orders from a terminal, line by line, until there are no more. -/
partial def converse (s : Session) (e : Console.Editor) : IO UInt32 := do
  print "herbert> "
  let line ← (← IO.getStdin).getLine
  let keys := if line.isEmpty then Console.Key.ofInput [] else Console.Key.ofChars line.toList
  match ← take s e keys with
  | .error code => return code
  | .ok (s, e) => converse s e

/-- Takes orders from an input that has been written beforehand. -/
def obey (s : Session) : IO UInt32 := do
  let input ← (← IO.getStdin).readToEnd
  match ← take s Console.Editor.empty (Console.Key.ofInput input.toList) with
  | .error code => return code
  | .ok _ => return 0

/-- Ends the program. -/
def finish (f : Console.Finish) : IO UInt32 := do
  print f.text
  return f.code.toUInt32

end Main

end RobotGolf

open RobotGolf

/-- Plays a solution on a level, as the arguments say. -/
def main (args : List String) : IO UInt32 := do
  match Invocation.ofArguments args with
  | .error r =>
    Main.usage.forM IO.eprintln
    Main.finish (Console.refuse r)
  | .ok i =>
    match Console.launch (← Main.openFiles i) i with
    | .ended f => Main.finish f
    | .ready s =>
      Main.print (Console.textOf (Console.welcome s))
      let terminal ← (← IO.getStdin).isTty
      let code ← if terminal then Main.converse s Console.Editor.empty else Main.obey s
      if code = 0 then IO.eprintln "Good bye!"
      return code
