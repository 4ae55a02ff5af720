import MigrationAudit.Analysis
import MigrationAudit.Json

namespace MigrationAudit

def Issue.toJson (i : Issue) : Json :=
  .object [("id", .text i.id), ("severity", .text i.severity.name), ("title", .text i.title),
    ("description", .text i.description), ("message", .text i.message), ("file", .text i.file),
    ("occurrences", .number i.occurrences)]

def Tally.toJson (t : Tally) : Json :=
  .object [("critical", .number t.critical), ("warning", .number t.warning),
    ("info", .number t.info)]

def Report.toJson (r : Report) : Json :=
  .object [("issue_count", .number r.issueCount),
    ("analyzed_file_count", .number r.analyzedFileCount),
    ("compatibility_score_percent", .number r.score), ("score_band", .text r.band.name),
    ("counts", r.tally.toJson), ("filter", .text r.view.name),
    ("issues", .array (r.issues.map Issue.toJson))]

def Rule.toJson (r : Rule) : Json :=
  .object [("id", .text r.id), ("severity", .text r.severity.name), ("title", .text r.title),
    ("description", .text r.description), ("pattern", .text r.regex.source),
    ("message", .ofOption .text r.advice.message?),
    ("conditional", .bool r.advice.isConditional)]

def Rule.allToJson (rules : List Rule) : Json := .array (rules.map Rule.toJson)

end MigrationAudit
