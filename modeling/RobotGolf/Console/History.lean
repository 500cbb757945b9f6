/-!
# Earlier lines

Lines that have been entered can be recalled one by one. The last item of a history is the line
that is being edited. Items that are recalled can be edited as well; what they have become is kept
as a draft, which counts until another line is entered.
-/

namespace RobotGolf.Console

/-- A line of the history: as it was entered, and as it has been edited since. The draft counts if
it is of the present round. -/
structure HistoryItem where
  entered : List Char
  draft : List Char
  round : Nat
  deriving DecidableEq, Repr

/-- The lines that can be recalled, the latest last, the one that is being edited, and the number of
rounds so far. -/
structure History where
  items : Array HistoryItem
  current : Option Nat
  round : Nat
  deriving DecidableEq, Repr

namespace History

/-- A history without lines. -/
def empty : History := ⟨#[], none, 0⟩

/-- Most lines in a history. -/
def limit : Nat := 500

/-- The number of the latest line. -/
def latest? (h : History) : Option Nat := if h.items.isEmpty then none else some (h.items.size - 1)

/-- A line as it is recalled. -/
def shown (h : History) (item : HistoryItem) : List Char :=
  if item.round = h.round then item.draft else item.entered

/-- Adds a line, and makes it the current one. -/
def push (h : History) (line : List Char) : History :=
  { h with items := h.items.push ⟨line, [], 0⟩, current := some h.items.size }

/-- Drops the earliest lines if there are too many. -/
def compact (h : History) : History :=
  let excess := h.items.size - limit
  { h with items := h.items.extract excess h.items.size, current := h.current.map (· - excess) }

/-- Changes the current line, if there is one. -/
def changeCurrent (h : History) (change : HistoryItem → HistoryItem) : History :=
  match h.current with
  | none => h
  | some i => { h with items := h.items.modify i change }

/-- Notes what the current line has become. -/
def edit (h : History) (line : List Char) : History :=
  if h.current.isNone then (h.push line).compact
  else (h.changeCurrent fun item => { item with draft := line, round := h.round }).compact

/-- Notes that the current line has been entered. -/
def commit (h : History) (line : List Char) : History :=
  if h.current.isNone then (h.push line).compact
  else (h.changeCurrent fun item => { item with entered := line, round := h.round }).compact

/-- Makes the latest line the current one again, with nothing in it, and starts another round. -/
def restart (h : History) : History :=
  let h := { h with current := h.latest? }
  { h.changeCurrent fun item => { item with entered := [], draft := [] } with round := h.round + 1 }

/-- The line in front of the latest one, as it was entered. -/
def beforeLatest? (h : History) : Option (List Char) :=
  if 2 ≤ h.items.size then h.items[h.items.size - 2]?.map (·.entered) else none

/-- Adds a line that has been entered. The same line is not added twice in a row, and an empty one
not at all unless it is the first. A line that was recalled is added as it was edited. -/
def enter (h : History) (line : List Char) : History :=
  if h.beforeLatest? = some line then h.restart
  else if line.isEmpty ∧ !h.items.isEmpty then h.restart
  else
    let recalled := if h.current = h.latest? then none else h.current.bind (h.items[·]?)
    let h := { h with current := h.latest? }
    let h := h.commit ((recalled.map (·.draft)).getD line)
    { h with round := h.round + 1 }.push []

/-- Recalls the line in front of the current one. -/
def previous? (h : History) : Option (List Char × History) :=
  match h.current with
  | some (i + 1) =>
    h.items[i]?.map fun item => (h.shown item, { h with current := some i })
  | _ => none

/-- Recalls the line behind the current one. -/
def next? (h : History) : Option (List Char × History) :=
  match h.current with
  | some i =>
    h.items[i + 1]?.map fun item => (h.shown item, { h with current := some (i + 1) })
  | none => none

end History

end RobotGolf.Console
