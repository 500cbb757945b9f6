import RobotGolf.Level.Fingerprint
/-!
# Tables of records

A table keeps the best score for every level that has been played with success. Levels are told
apart by their fingerprints, so a level that was renamed keeps its record.
-/

namespace RobotGolf

/-- The best scores by fingerprint. Every fingerprint is listed at most once. -/
structure Records where
  entries : List (String × Int64)
  deriving DecidableEq, Repr

namespace Records

/-- A table without records. -/
def empty : Records := ⟨[]⟩

/-- The record for a fingerprint, or zero. -/
def best (r : Records) (fingerprint : String) : Int64 := (r.entries.lookup fingerprint).getD 0

/-- The record for a level, or zero. -/
def bestOf (r : Records) (l : Level) : Int64 := r.best l.fingerprint

/-- The number of levels with a record. -/
def size (r : Records) : Nat := r.entries.length

/-- Enters points for a fingerprint, which count if they are more than the record. -/
def submit (r : Records) (fingerprint : String) (points : Int64) : Records :=
  if points ≤ r.best fingerprint then r
  else ⟨(fingerprint, points) :: r.entries.filter (·.1 != fingerprint)⟩

end Records

end RobotGolf
