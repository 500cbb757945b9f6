import RobotGolf.Session.Basic
/-!
# Sessions that share records

An arcade holds any number of sessions and of tables of records. Sessions are attached to tables and
may share them. An operation on a session sees its table as all sessions before have left it, and
leaves it to all sessions after.
-/

namespace RobotGolf

/-- What can be done with a session. Each operation comes with its result, if it has one. -/
inductive Operation where
  | step
  | run (n : Int)
  | start (now : Int)
  | update (now : Int)
  | stop
  | reset
  deriving DecidableEq, Repr

/-- The result of an operation. -/
inductive Result where
  | none
  | changed (b : Bool)
  | executed (n : Int)
  deriving DecidableEq, Repr

/-- Carries out an operation. -/
def Session.perform (s : Session) : Operation → Result × Session
  | .step =>
    let moved := s.step
    (.changed moved.1, moved.2)
  | .run n =>
    let ran := s.run n
    (.executed ran.1, ran.2)
  | .start now => (.none, s.start now)
  | .update now =>
    let moved := s.update now
    (.changed moved.1, moved.2)
  | .stop => (.none, s.stop)
  | .reset => (.none, s.reset)

/-- A session in an arcade, and the number of the table that it is attached to. -/
structure Seat where
  session : Session
  table : Option Nat

/-- Sessions and tables of records. -/
structure Arcade where
  seats : Array Seat
  tables : Array Records

namespace Arcade

/-- An arcade with sessions that are attached to no table, and empty tables. -/
def new (sessions : List Session) (tables : Nat) : Arcade :=
  ⟨(sessions.map fun s => ⟨s, none⟩).toArray, Array.replicate tables Records.empty⟩

/-- The session on a seat, with its table at hand. -/
def sessionAt? (a : Arcade) (seat : Nat) : Option Session :=
  a.seats[seat]?.map fun s => s.session.useRecords (s.table.bind (a.tables[·]?))

/-- Carries out an operation on the session on a seat. -/
def perform? (a : Arcade) (seat : Nat) (op : Operation) : Option (Result × Arcade) :=
  match a.seats[seat]?, a.sessionAt? seat with
  | some s, some session =>
    let done := session.perform op
    let tables :=
      match s.table, done.2.records with
      | some t, some records => a.tables.setIfInBounds t records
      | _, _ => a.tables
    some (done.1, ⟨a.seats.setIfInBounds seat ⟨done.2, s.table⟩, tables⟩)
  | _, _ => none

/-- Attaches the session on a seat to a table, or to none. -/
def attach? (a : Arcade) (seat : Nat) (table : Option Nat) : Option Arcade :=
  match a.seats[seat]?, table with
  | some s, none => some { a with seats := a.seats.setIfInBounds seat { s with table := none } }
  | some s, some t =>
    if t < a.tables.size then
      some { a with seats := a.seats.setIfInBounds seat { s with table := some t } }
    else none
  | none, _ => none

end Arcade

end RobotGolf
