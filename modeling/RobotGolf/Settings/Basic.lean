import RobotGolf.Input
import RobotGolf.Level.Load
import RobotGolf.Machine.Basic
import RobotGolf.Settings.Scalar
import RobotGolf.Yaml.Node
/-!
# Settings

Settings are the dimensions of levels, the frame rate, the level of tracing, the limits of
evaluation, and a budget of steps for playing without a console. They are read from a YAML mapping,
in which every key is optional and none may be unknown or repeated. All entries that do not fit are
reported together, in order. Settings that fit are then checked for values out of range.
-/

namespace RobotGolf

/-- The settings. -/
structure Settings where
  rows : Int64
  cols : Int64
  fps : Int64
  trace : String
  maxDepth : Int64
  maxSilentCalls : Int64
  stepBudget : Int64
  deriving DecidableEq, Repr

/-! ### Errors -/

/-- An entry that does not fit, with its line. -/
inductive Mismatch where
  | wrongType (line : Nat) (found target : String)
  | unknownField (line : Nat) (name : String)
  | repeatedField (line : Nat) (name : String)
  deriving DecidableEq, Repr

/-- The wording of a mismatch. -/
def Mismatch.message : Mismatch → String
  | wrongType line found target =>
    "line " ++ toString line ++ ": cannot unmarshal " ++ found ++ " into " ++ target
  | unknownField line name =>
    "line " ++ toString line ++ ": field " ++ name ++ " not found in type config.Config"
  | repeatedField line name =>
    "line " ++ toString line ++ ": field " ++ name ++ " already set in type config.Config"

/-- Why no settings can be taken from a document. -/
inductive Obstacle where
  | scalar (r : Scalar.Refusal)
  | mergedValue
  | selfReference (name : String)
  | excessiveReferences
  deriving DecidableEq, Repr

/-- The wording of an obstacle. -/
def Obstacle.message : Obstacle → String
  | scalar r => r.message
  | mergedValue => "map merge requires map or sequence of maps as the value"
  | selfReference name => "anchor '" ++ name ++ "' value contains itself"
  | excessiveReferences => "document contains excessive aliasing"

/-- Why there are no settings. -/
inductive SettingsError where
  | unopened (reason : String)
  | unreadable (reason : String)
  | notYaml (flaw : Yaml.Flaw)
  | obstructed (obstacle : Obstacle)
  | mismatches (all : List Mismatch)
  | notPositive (key : String) (n : Int64)
  | negativeBudget (n : Int64)
  | unknownTrace (trace : String)
  deriving DecidableEq, Repr

namespace SettingsError

/-- The wording of an error. -/
def message : SettingsError → String
  | unopened reason => "cannot open configuration: " ++ reason
  | unreadable reason => "cannot read configuration: " ++ reason
  | notYaml flaw => "malformed configuration: yaml: " ++ flaw.message
  | obstructed obstacle => "malformed configuration: yaml: " ++ obstacle.message
  | mismatches all =>
    "malformed configuration: yaml: unmarshal errors:"
      ++ String.join (all.map fun m => "\n  " ++ m.message)
  | notPositive key n =>
    "configuration value " ++ key ++ " must be positive: " ++ toString n.toInt
  | negativeBudget n =>
    "configuration value step-budget must not be negative: " ++ toString n.toInt
  | unknownTrace trace => "unknown trace level: " ++ trace

end SettingsError

namespace Settings

/-- The settings that hold unless others are given. -/
def standard : Settings := ⟨25, 25, 4, "Info", 1000000, 1000000, 0⟩

/-- Settings with nothing in them. A document that holds nothing leads to these. -/
def blank : Settings := ⟨0, 0, 0, "", 0, 0, 0⟩

/-! ### Decoding -/

/-- What happened while settings were taken from a document: the nodes that were looked at, those of
them that were looked at through a reference, and the entries that do not fit, the latest first. -/
structure Tally where
  visits : Nat
  referred : Nat
  mismatches : List Mismatch

/-- Taking settings from a document. -/
abbrev Decoding := StateT Tally (Except Obstacle)

namespace Decoding

/-- Stops at an obstacle. -/
def stop {α : Type} (o : Obstacle) : Decoding α := fun _ => .error o

/-- The share of nodes that may be looked at through references, in units of one out of 360 million:
99 of 100 for up to 400000 nodes, 10 of 100 from 4000000 nodes on, and evenly less in between. -/
def allowance (visits : Nat) : Nat :=
  if visits ≤ 400000 then 99 * 3600000
  else if 4000000 ≤ visits then 10 * 3600000
  else 99 * 3600000 - 89 * (visits - 400000)

/-- Whether too many nodes have been looked at through references. -/
def isExcessive (t : Tally) : Bool :=
  100 < t.referred && 1000 < t.visits && allowance t.visits * t.visits < 360000000 * t.referred

/-- Looks at a node, through a reference or not. -/
def visit (referred : Bool) : Decoding Unit := do
  modify fun t =>
    { t with visits := t.visits + 1, referred := if referred then t.referred + 1 else t.referred }
  if isExcessive (← get) then stop .excessiveReferences

/-- Notes an entry that does not fit. -/
def note (m : Mismatch) : Decoding Unit :=
  modify fun t => { t with mismatches := m :: t.mismatches }

/-- Looks at a node, or at the node that it refers to. `trail` holds the references through which
the node was reached, and the result those through which the node that is looked at was. A node must
not contain a reference that led to it. -/
def follow (named : Array Yaml.Node) (trail : List Nat) (node : Yaml.Node) :
    Decoding (Yaml.Node × List Nat) := do
  visit (!trail.isEmpty)
  match node with
  | .reference name target serial _ =>
    if trail.contains serial then stop (.selfReference name)
    visit true
    match named[target]? with
    | none => stop (.selfReference name)
    | some node => return (node, serial :: trail)
  | _ => return (node, trail)

/-- What a scalar stands for. -/
def resolve (text : String) (tag : Bytes) (implicit : Bool) : Decoding Scalar :=
  match Scalar.resolve text (Bytes.toText tag) implicit with
  | .error r => stop (.scalar r)
  | .ok s => return s

end Decoding

/-! ### Entries -/

/-- The text of a scalar as it is shown. Of a text of more than ten octets the first seven are
shown. -/
def excerpt (text : String) : String :=
  let octets := Bytes.ofString text
  if 10 < octets.length then Bytes.toText (octets.take 7) ++ "..." else text

/-- What a part of a document is, as it is shown if it does not fit. `meaning` is the tag of what a
scalar stands for; a tag that is written takes precedence. -/
def describe (node : Yaml.Node) (meaning : String) : String :=
  match node with
  | .scalar text tag _ _ =>
    let shown := if tag.isEmpty then meaning else Scalar.shownTag (Bytes.toText tag)
    let isCollection := Scalar.isCore (Bytes.toText tag) && (shown = "!!seq" || shown = "!!map")
    if isCollection then shown ++ text else shown ++ " \x60" ++ excerpt text ++ "\x60"
  | .mapping _ _ => "!!map"
  | _ => "!!seq"

/-- Notes that a part of a document does not fit. -/
def misfit (node : Yaml.Node) (meaning target : String) : Decoding Unit :=
  Decoding.note (.wrongType (node.line + 1) (describe node meaning) target)

/-- The number for a setting, if the node fits: nothing counts as zero, and a fraction loses its
places. -/
def numberOf (named : Array Yaml.Node) (trail : List Nat) (node : Yaml.Node) :
    Decoding (Option Int64) := do
  let (node, _) ← Decoding.follow named trail node
  let refuse (meaning : String) : Decoding (Option Int64) := do
    misfit node meaning "int"
    return none
  match node with
  | .scalar text tag implicit _ =>
    let s ← Decoding.resolve text tag implicit
    match s with
    | .null => return some 0
    | .integer n =>
      match Numeral.fitting? n with
      | some word => return some word
      | none => refuse s.tag
    | .fraction (some word) => return some word
    | _ => refuse s.tag
  | _ => refuse ""

/-- The text for a setting or a key, if the node fits: nothing counts as the empty text. -/
def textOf (named : Array Yaml.Node) (trail : List Nat) (node : Yaml.Node) :
    Decoding (Option String) := do
  let (node, _) ← Decoding.follow named trail node
  match node with
  | .scalar text tag implicit _ =>
    match ← Decoding.resolve text tag implicit with
    | .null => return some ""
    | .string meant => return some meant
    | _ => return some text
  | _ =>
    misfit node "" "string"
    return none

/-- The keys of all settings. -/
def keys : List String :=
  ["rows", "cols", "fps", "trace", "max-depth", "max-silent-calls", "step-budget"]

/-- Changes the setting with a given key. -/
def set (s : Settings) (key : String) (named : Array Yaml.Node) (trail : List Nat)
    (value : Yaml.Node) : Decoding Settings := do
  let number (change : Int64 → Settings) : Decoding Settings := do
    return ((← numberOf named trail value).map change).getD s
  match key with
  | "rows" => number fun n => { s with rows := n }
  | "cols" => number fun n => { s with cols := n }
  | "fps" => number fun n => { s with fps := n }
  | "trace" =>
    return ((← textOf named trail value).map fun t => { s with trace := t }).getD s
  | "max-depth" => number fun n => { s with maxDepth := n }
  | "max-silent-calls" => number fun n => { s with maxSilentCalls := n }
  | "step-budget" => number fun n => { s with stepBudget := n }
  | _ => return s

/-- Changes the setting of an entry that is not to be merged. `seen` holds earlier keys. -/
def setEntry (s : Settings) (seen : List String) (named : Array Yaml.Node) (trail : List Nat)
    (key value : Yaml.Node) : Decoding (Settings × List String) := do
  match ← textOf named trail key with
  | none => return (s, seen)
  | some name =>
    if !keys.contains name then
      Decoding.note (.unknownField (key.line + 1) name)
      return (s, seen)
    else if seen.contains name then
      Decoding.note (.repeatedField (key.line + 1) name)
      return (s, seen)
    else return (← s.set name named trail value, name :: seen)

/-! ### Merging -/

/-- Whether the value of a key is to be merged with the other entries. -/
def isMerge : Yaml.Node → Bool
  | .scalar text tag implicit _ =>
    text == "<<" && (implicit || Bytes.toText tag == Scalar.stem ++ "merge")
  | _ => false

/-- Whether a node is a mapping, or refers to one. -/
def isMapping (named : Array Yaml.Node) : Yaml.Node → Bool
  | .mapping _ _ => true
  | .reference _ target _ _ =>
    match named[target]? with
    | some (.mapping _ _) => true
    | _ => false
  | _ => false

/-- What is merged for a value: the value itself, or the members of a sequence from the last one
on. -/
def merged : Yaml.Node → List Yaml.Node
  | .sequence items _ => items.reverse
  | value => [value]

/-- Takes settings from a mapping, or from what does not fit. `trail` holds the references through
which it was reached. Mappings that are merged are taken from inside of it, and `depth` bounds how
deep: there are no more mappings around each other than a document has nodes, for each of its
references. -/
def setAll (named : Array Yaml.Node) :
    (depth : Nat) → (trail : List Nat) → Yaml.Node → Settings → Decoding Settings
  | 0, _, _, _ => Decoding.stop .excessiveReferences
  | depth + 1, trail, node, s => do
    let (node, trail) ← Decoding.follow named trail node
    let merge (s : Settings) (m : Yaml.Node) : Decoding Settings := do
      if !isMapping named m then Decoding.stop .mergedValue
      setAll named depth trail m s
    let add (state : Settings × List String) (entry : Yaml.Node × Yaml.Node) :
        Decoding (Settings × List String) := do
      if isMerge entry.1 then return (← (merged entry.2).foldlM merge state.1, state.2)
      else setEntry state.1 state.2 named trail entry.1 entry.2
    match node with
    | .mapping entries _ => return (← entries.foldlM add (s, [])).1
    | .scalar text tag implicit _ =>
      let meaning ← Decoding.resolve text tag implicit
      if meaning = .null then return blank
      misfit node meaning.tag "config.Config"
      return s
    | _ =>
      misfit node "" "config.Config"
      return s

/-- The settings of a document, in which there are no more than `size` nodes. -/
def ofDocument (size : Nat) (d : Yaml.Document) : Except SettingsError Settings :=
  let taking : Decoding Settings := do
    Decoding.visit false
    setAll d.named ((size + 1) * (size + 1)) [] d.root standard
  match taking ⟨0, 0, []⟩ with
  | .error o => .error (.obstructed o)
  | .ok (s, ⟨_, _, []⟩) => .ok s
  | .ok (_, ⟨_, _, mismatches⟩) => .error (.mismatches mismatches.reverse)

/-! ### Ranges -/

/-- The lower-case form of a character, as far as that is an ASCII letter. Beyond ASCII there are
two capitals with such a form: the I with a dot above, and the sign for kelvin. -/
def lower (c : Char) : Char :=
  match c with
  | '\u0130' => 'i'
  | '\u212A' => 'k'
  | _ => c.toLower

/-- The levels of tracing, in lower case. -/
def traceLevels : List String := ["debug", "info", "error"]

/-- The first of some named numbers that is not positive. -/
def firstNotPositive? (values : List (String × Int64)) : Option (String × Int64) :=
  values.find? fun v => v.2 < 1

/-- Checks settings for values out of range. The case of letters does not matter for the level of
tracing. -/
def validate (s : Settings) : Except SettingsError Unit :=
  let positive :=
    [("rows", s.rows), ("cols", s.cols), ("fps", s.fps), ("max-depth", s.maxDepth),
      ("max-silent-calls", s.maxSilentCalls)]
  match firstNotPositive? positive with
  | some (key, n) => .error (.notPositive key n)
  | none =>
    if s.stepBudget < 0 then .error (.negativeBudget s.stepBudget)
    else if traceLevels.contains (s.trace.map lower) then .ok ()
    else .error (.unknownTrace s.trace)

/-! ### Reading -/

/-- Reads settings from a text. -/
def ofText (text : Bytes) : Except SettingsError Settings :=
  let found : Except SettingsError Settings :=
    match Yaml.Document.read text with
    | .error flaw => .error (.notYaml flaw)
    | .ok none => .ok standard
    | .ok (some document) => ofDocument (text.length + 2) document
  match found with
  | .error e => .error e
  | .ok s =>
    match s.validate with
    | .error e => .error e
    | .ok _ => .ok s

/-- Reads settings from a feed. -/
def read (feed : Feed) : Except SettingsError Settings :=
  match feed.readAll with
  | .error reason => .error (.unreadable reason)
  | .ok text => ofText text

/-- Reads settings from a file. Without a file name there are the standard settings. -/
def loadFile (files : Files) (path : String) : Except SettingsError Settings :=
  if path.isEmpty then .ok standard
  else
    match files path with
    | .error reason => .error (.unopened reason)
    | .ok feed => read feed

/-! ### What settings are for -/

/-- The limits of evaluation. -/
def limits (s : Settings) : Limits :=
  (Limits.standard.withDepth s.maxDepth).withSilent s.maxSilentCalls

/-- The dimensions of levels, with a name for the level. -/
def levelOptions (s : Settings) (name : String) : Level.Options := ⟨s.rows, s.cols, name⟩

end Settings

end RobotGolf
