import MigrationAudit.Text.Blank
import MigrationAudit.Text.Search
import MigrationAudit.Severity
import MigrationAudit.Failure
import MigrationAudit.Event
import MigrationAudit.Pattern.Basic
import MigrationAudit.Pattern.Match
import MigrationAudit.Text.Decimal
import MigrationAudit.Pattern.Token
import MigrationAudit.Pattern.Parse
import MigrationAudit.Rule
import MigrationAudit.Catalog
import MigrationAudit.Issue
import MigrationAudit.Shape
import MigrationAudit.Score
import MigrationAudit.Text.Utf8
import MigrationAudit.Analysis
import MigrationAudit.Session
import MigrationAudit.Style
import MigrationAudit.Report.Human
import MigrationAudit.Json
import MigrationAudit.Report.Data
import MigrationAudit.Glob
import MigrationAudit.Path
import MigrationAudit.FileTree
import MigrationAudit.Discovery
import MigrationAudit.Config.Preferences
import MigrationAudit.Config.Toml
import MigrationAudit.Config.Yaml.Scalar
import MigrationAudit.Config.Yaml.Token
import MigrationAudit.Config.Yaml.Document
import MigrationAudit.Settings
import MigrationAudit.CommandLine
import MigrationAudit.Program
import MigrationAudit.Main
import MigrationAudit.Proofs.Contribution
import MigrationAudit.Proofs.Origin
import MigrationAudit.Proofs.Decoding
import MigrationAudit.Proofs.Isolation
import MigrationAudit.Proofs.RuleIsolation
import MigrationAudit.Proofs.PathNames
import MigrationAudit.Proofs.RelativePath
import MigrationAudit.Proofs.Lookup
import MigrationAudit.Proofs.Walk
import MigrationAudit.Proofs.Targets
import MigrationAudit.Proofs.Arrangement
import MigrationAudit.Proofs.ByteOrder
import MigrationAudit.Proofs.Collecting
import MigrationAudit.Proofs.LatestScan
import MigrationAudit.Proofs.Ascending
import MigrationAudit.Proofs.Reordering
import MigrationAudit.Proofs.Spelling
import MigrationAudit.Proofs.Addresses
import MigrationAudit.Proofs.Listing
import MigrationAudit.Proofs.ListedOnce
import MigrationAudit.Proofs.RootSpelling
import MigrationAudit.Proofs.Penalty
import MigrationAudit.Proofs.Growing
import MigrationAudit.Proofs.Effective
import MigrationAudit.Proofs.SettingsFields
import MigrationAudit.Proofs.Quoting
import MigrationAudit.Proofs.TomlDocument
import MigrationAudit.Proofs.YamlTokens
import MigrationAudit.Proofs.YamlDocument
import MigrationAudit.Proofs.SettingsFiles
import MigrationAudit.Proofs.Arguments
import MigrationAudit.Proofs.Options
import MigrationAudit.Proofs.Stages
import MigrationAudit.Proofs.RealAddress
import MigrationAudit.Proofs.ExitCode
import MigrationAudit.Proofs.Ancestors
import MigrationAudit.Proofs.NearestRoot
import MigrationAudit.Proofs.NearestConfig
import MigrationAudit.Proofs.Streams
import MigrationAudit.Proofs.Outcomes
import MigrationAudit.Proofs.Scanning
import MigrationAudit.Proofs.Declarations
import MigrationAudit.Proofs.TargetLevel
import MigrationAudit.Proofs.Views
import MigrationAudit.Proofs.Kinds
import MigrationAudit.Proofs.Classifying
import MigrationAudit.Proofs.RelativeStart
import MigrationAudit.Proofs.Covering
import MigrationAudit.Proofs.Resuming
import MigrationAudit.Proofs.Fences
import MigrationAudit.Proofs.Numbering
import MigrationAudit.Proofs.FoundMatches
import MigrationAudit.Proofs.WordRules
import MigrationAudit.Proofs.Stretches
import MigrationAudit.Proofs.LineRules
import MigrationAudit.Proofs.ProjectFindings
import MigrationAudit.Proofs.ScoreInWords
import MigrationAudit.Proofs.DirectoryExcludes
import MigrationAudit.Proofs.Rendition
import MigrationAudit.Proofs.StyledReport
import MigrationAudit.Proofs.ReportColours
import MigrationAudit.Proofs.LegibleReport
import MigrationAudit.Proofs.ReportTells
import MigrationAudit.Proofs.ScoreOfParts
import MigrationAudit.Proofs.Malformed
import MigrationAudit.Proofs.DecodedBytes
import MigrationAudit.Proofs.ShapeOfParts
