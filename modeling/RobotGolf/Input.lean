import RobotGolf.Text.Glyph
/-!
# Where texts come from

A text is read from a feed: octets, after which there is either the end of the text or a failure. A
feed that fails delivers all its octets first. Files are found by name; a name without a file cannot
be opened.
-/

namespace RobotGolf

/-- Octets to be read, and the failure that follows them in place of the end, if there is one. -/
structure Feed where
  content : Bytes
  failure : Option String
  deriving DecidableEq, Repr

namespace Feed

/-- A feed that ends after a text. -/
def ofBytes (text : Bytes) : Feed := ⟨text, none⟩

/-- A feed that delivers at most `n` octets of a text and then fails. -/
def failing (text : Bytes) (n : Nat) (reason : String) : Feed := ⟨text.take n, some reason⟩

/-- All octets of a feed, or the failure behind them. -/
def readAll (f : Feed) : Except String Bytes :=
  match f.failure with
  | none => .ok f.content
  | some reason => .error reason

end Feed

/-- The files that can be opened, by name: what is read from a file, or why it cannot be opened. -/
abbrev Files := String → Except String Feed

namespace Files

/-- The report that a file could not be opened. -/
def unopened (name reason : String) : String := "open " ++ name ++ ": " ++ reason

/-- Why a file could not be opened that does not exist. -/
def absent : String := "no such file or directory"

/-- The report that a file does not exist. -/
def missing (name : String) : String := unopened name absent

/-- A directory can be opened, but there is nothing to be read from it. -/
def directory (name : String) : Feed := ⟨[], some ("read " ++ name ++ ": is a directory")⟩

/-- A relative path without the components that stay where they are. -/
def simplify (path : String) : String :=
  "/".intercalate ((path.splitOn "/").filter fun part => part != "" && part != ".")

/-! ### Walking along paths -/

/-- Where a walk along a path has come to: the present directory, another directory, with the names
that lead to it from the root if they are known, or a file. -/
inductive Location where
  | here
  | elsewhere (names : Option (List String))
  | file (content : Bytes)
  deriving DecidableEq, Repr

/-- Most octets in a component of a path. -/
def maxComponent : Nat := 255

/-- Most octets in a path. -/
def maxPath : Nat := 4095

/-- The directories in the root that can be counted on. -/
def rootDirectories : List String :=
  ["bin", "dev", "etc", "home", "lib", "proc", "root", "sys", "tmp", "usr", "var"]

/-- The file that is always empty. -/
def emptyDevice : List String := ["dev", "null"]

/-- Goes from a directory to one of its members. There are some files in the present directory, and
little is known about others. -/
def Location.enter? (entries : List (String × Bytes)) (name : String) :
    Location → Option Location
  | here => (entries.find? fun entry => simplify entry.1 == name).map fun entry => file entry.2
  | elsewhere (some names) =>
    let path := names ++ [name]
    if path = emptyDevice then some (file [])
    else if names.isEmpty ∧ name ∈ rootDirectories then some (elsewhere (some path))
    else none
  | elsewhere none => none
  | file _ => none

/-- Goes along one component of a path, or tells why that is not possible. -/
def Location.walk (entries : List (String × Bytes)) (l : Location) (part : String) :
    Except String Location :=
  match l with
  | file _ => .error "not a directory"
  | here => if part = "." then .ok here else if part = ".." then .ok (elsewhere none) else name l
  | elsewhere names =>
    if part = "." then .ok l
    else if part = ".." then .ok (elsewhere (names.map List.dropLast))
    else name l
where
  /-- Goes to a member of a directory. -/
  name (l : Location) : Except String Location :=
    if maxComponent < part.utf8ByteSize then .error "file name too long"
    else
      match l.enter? entries part with
      | none => .error absent
      | some found => .ok found

/-- Goes along a path. A slash at its end is for directories only. -/
def locate (entries : List (String × Bytes)) (path : String) : Except String Location :=
  let start := if path.startsWith "/" then .elsewhere (some []) else Location.here
  let parts := (path.splitOn "/").filter (· != "")
  let parts := if path.endsWith "/" then parts ++ ["."] else parts
  if path.isEmpty then .error absent
  else if path.contains '\x00' then .error "invalid argument"
  else if maxPath < path.utf8ByteSize then .error "file name too long"
  else parts.foldlM (Location.walk entries) start

/-- Some files in the present directory. -/
def ofList (entries : List (String × Bytes)) : Files := fun name =>
  match locate entries name with
  | .error reason => .error (unopened name reason)
  | .ok (.file content) => .ok (Feed.ofBytes content)
  | .ok _ => .ok (directory name)

/-! ### Names -/

/-- The last component of a path: what follows its last slash, slashes at its end apart. A path
without components is `/` if it has a slash, and `.` if it is empty. -/
def baseName (path : String) : String :=
  let ending := path.toList.reverse
  match (ending.dropWhile (· == '/')).takeWhile (· != '/') with
  | [] => if path.isEmpty then "." else "/"
  | name => String.ofList name.reverse

end Files

end RobotGolf
