import RobotGolf.Level.Basic
import RobotGolf.Text.Md5
/-!
# Fingerprints of levels

Results are recorded by what a level consists of, not by its name. The content of a level is written
as one line of text, and the digest of that text is the level's fingerprint.
-/

namespace RobotGolf.Level

/-- The content of a level as the text that is digested. -/
def content (l : Level) : String :=
  "\x7bCols:" ++ toString l.cols ++ ",Grid:\"" ++ l.render ++ "\",MaxBytes:" ++ toString l.maxBytes
    ++ ",Points:" ++ toString l.points ++ ",Rows:" ++ toString l.rows ++ "\x7d"

/-- The digest of a level's content. -/
def digest (l : Level) : String := Md5.hexDigest (Bytes.ofString l.content)

/-- A level's fingerprint: its digest with the version of the content's format. -/
def fingerprint (l : Level) : String := "v1_" ++ l.digest

end RobotGolf.Level
