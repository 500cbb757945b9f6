import RobotGolf.Program.Basic
import RobotGolf.Text.Glyph
/-!
# Frames and stacks of frames

A frame is a sequence that is being run: how many of its elements have been passed, the elements
that are left, and the scope to run them in. Frames that wait for others are kept on a stack. A
stack knows its size, because evaluation asks for it at every call.
-/

namespace RobotGolf

/-- A sequence that is being run. -/
structure Frame (κ : Type) where
  name : String
  passed : Nat
  rest : List Element
  scope : κ

namespace Frame

variable {κ : Type}

/-- A frame at the start of its sequence. -/
def enter (name : String) (body : List Element) (scope : κ) : Frame κ := ⟨name, 0, body, scope⟩

/-- The length of the sequence, passed elements included. -/
def length (f : Frame κ) : Nat := f.passed + f.rest.length

/-- Nothing is left to run. -/
def exhausted (f : Frame κ) : Bool := f.rest.isEmpty

/-- The sequence consists of a single element. -/
def sole (f : Frame κ) : Bool := f.length == 1

/-- The next element, and the frame behind it. -/
def advance? (f : Frame κ) : Option (Element × Frame κ) :=
  match f.rest with
  | [] => none
  | e :: rest => some (e, { f with passed := f.passed + 1, rest := rest })

/-- A frame as it is listed, given the text of its scope. -/
def render (f : Frame κ) (scope : Bytes) : Bytes :=
  .ofString ("<frame " ++ f.name ++ " " ++ toString f.passed ++ "/" ++ toString f.length ++ " in ")
    ++ scope ++ .ofString ">"

/-- Passing an element does not change the length. -/
theorem length_advance? {f g : Frame κ} {e : Element} (h : f.advance? = some (e, g)) :
    g.length = f.length := by
  unfold advance? at h
  split at h
  · simp at h
  · next hr =>
    simp only [Option.some.injEq, Prod.mk.injEq] at h
    obtain ⟨_, rfl⟩ := h
    simp only [length, hr, List.length_cons]
    omega

end Frame

/-- A stack, its top first. -/
structure Stack (α : Type) where
  items : List α
  size : Nat
  size_eq : size = items.length

namespace Stack

variable {α : Type}

/-- The stack without items. -/
def empty : Stack α := ⟨[], 0, rfl⟩

/-- The item on top. -/
def top? (s : Stack α) : Option α := s.items.head?

/-- Puts an item on top. -/
def push (s : Stack α) (a : α) : Stack α :=
  ⟨a :: s.items, s.size + 1, by simp [s.size_eq]⟩

/-- Takes the item on top off the stack, if there is one. -/
def pop (s : Stack α) : Stack α := ⟨s.items.tail, s.size - 1, by simp [s.size_eq]⟩

/-- Nothing is on the stack. -/
def isEmpty (s : Stack α) : Bool := s.items.isEmpty

@[simp]
theorem items_empty : (empty : Stack α).items = [] := rfl

@[simp]
theorem items_push (s : Stack α) (a : α) : (s.push a).items = a :: s.items := rfl

@[simp]
theorem items_pop (s : Stack α) : s.pop.items = s.items.tail := rfl

/-- A stack is determined by its items. -/
theorem ext_items {s t : Stack α} (h : s.items = t.items) : s = t := by
  obtain ⟨items, size, hs⟩ := s
  obtain ⟨items', size', ht⟩ := t
  simp only at h
  subst h
  simp only [hs, ht]

end Stack

end RobotGolf
