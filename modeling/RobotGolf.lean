import RobotGolf.Command
import RobotGolf.Console.Arguments
import RobotGolf.Console.Basic
import RobotGolf.Console.Editor
import RobotGolf.Console.History
import RobotGolf.Console.Key
import RobotGolf.Console.Markup
import RobotGolf.Console.Report
import RobotGolf.Input
import RobotGolf.Level.Basic
import RobotGolf.Level.Fingerprint
import RobotGolf.Level.Load
import RobotGolf.Level.Position
import RobotGolf.Level.PositionSet
import RobotGolf.Level.Wall
import RobotGolf.Machine.Basic
import RobotGolf.Machine.Bench
import RobotGolf.Machine.Frame
import RobotGolf.Machine.Scope
import RobotGolf.Main
import RobotGolf.Program.Basic
import RobotGolf.Program.Cost
import RobotGolf.Program.Parse
import RobotGolf.Program.Spelling
import RobotGolf.Program.SyntaxError
import RobotGolf.Proofs.Answers
import RobotGolf.Proofs.Grammar
import RobotGolf.Proofs.Reading
import RobotGolf.Proofs.Step
import RobotGolf.Session.Arcade
import RobotGolf.Session.Basic
import RobotGolf.Session.Records
import RobotGolf.Session.Solution
import RobotGolf.Settings.Basic
import RobotGolf.Settings.Scalar
import RobotGolf.Settings.Timestamp
import RobotGolf.Span
import RobotGolf.Text.Base64
import RobotGolf.Text.Blank
import RobotGolf.Text.Glyph
import RobotGolf.Text.Md5
import RobotGolf.Text.Numeral
import RobotGolf.Text.Numeric
import RobotGolf.Text.Place
import RobotGolf.Text.Printable
import RobotGolf.Text.Quoted
import RobotGolf.Token
import RobotGolf.World.Basic
import RobotGolf.World.Score
import RobotGolf.Yaml.Node
import RobotGolf.Yaml.Problem
import RobotGolf.Yaml.ScalarText
import RobotGolf.Yaml.Source
import RobotGolf.Yaml.Token
import RobotGolf.Yaml.TokenStream
import RobotGolf.Proofs.Derivation
import RobotGolf.Proofs.Acceptance
import RobotGolf.Proofs.Legible
import RobotGolf.Proofs.RoundTrip
import RobotGolf.Proofs.Meaning
import RobotGolf.Proofs.Invariant
import RobotGolf.Proofs.Refinement
import RobotGolf.Proofs.Runs
import RobotGolf.Proofs.Heredity
import RobotGolf.Proofs.Scoping
import RobotGolf.Proofs.Replay
import RobotGolf.Proofs.Raster
import RobotGolf.Proofs.Survey
import RobotGolf.Proofs.Glyphs
import RobotGolf.Proofs.Loading
import RobotGolf.Proofs.LevelRoundTrip
import RobotGolf.Proofs.ByteCost
import RobotGolf.Proofs.CanonicalText
import RobotGolf.Proofs.Chart
import RobotGolf.Proofs.Buttons
import RobotGolf.Proofs.BestScores
import RobotGolf.Proofs.SharedRecords
import RobotGolf.Proofs.RaisedLimits
import RobotGolf.Proofs.TailCalls
import RobotGolf.Proofs.ErrorOffsets
import RobotGolf.Proofs.Lookahead
import RobotGolf.Proofs.Obstacles
import RobotGolf.Proofs.FaultyLines
import RobotGolf.Proofs.ErrorSites
import RobotGolf.Proofs.Lockstep
import RobotGolf.Proofs.Renaming
import RobotGolf.Proofs.Inheritance
import RobotGolf.Proofs.ReachableNames
import RobotGolf.Proofs.NonzeroValues
import RobotGolf.Proofs.Walls
import RobotGolf.Proofs.Trail
import RobotGolf.Proofs.Modes
import RobotGolf.Proofs.StartingOver
import RobotGolf.Proofs.MaximalRuns
import RobotGolf.Proofs.Fingerprints
import RobotGolf.Proofs.FailingFeeds
import RobotGolf.Proofs.FairScores
import RobotGolf.Proofs.Sequences
import RobotGolf.Proofs.StackDiscipline
import RobotGolf.Proofs.EndlessDescent
import RobotGolf.Proofs.SingleFrame
import RobotGolf.Proofs.FinalEnd
import RobotGolf.Proofs.NoticedEnd
import RobotGolf.Proofs.Completion
import RobotGolf.Proofs.Unplaced
import RobotGolf.Proofs.Countdowns
import RobotGolf.Proofs.SourceSpans
import RobotGolf.Proofs.Batches
import RobotGolf.Proofs.Pace
import RobotGolf.Proofs.Views
import RobotGolf.Proofs.Deliveries
import RobotGolf.Proofs.Places
import RobotGolf.Proofs.Snapshots
import RobotGolf.Proofs.Cursor
import RobotGolf.Proofs.Following
import RobotGolf.Proofs.Bindings
