import MigrationAudit.Issue

namespace MigrationAudit

/-- A file to analyze. Without content it could not be read. -/
structure InputFile where
  name : String
  relativePath : Option String
  content : Option ByteArray

namespace InputFile

/-- The path from the scanned root if it is known, else the bare name. -/
def path (f : InputFile) : String := f.relativePath.getD f.name

def acceptedEndings : List String := [".java", ".kt", ".xml", ".gradle", ".json"]

/-- Whether files of that name are analyzed; ASCII case does not count. -/
def isAcceptedName (name : String) : Bool :=
  acceptedEndings.any (Text.endsWith (Text.lower name))

def isAccepted (f : InputFile) : Bool := isAcceptedName f.name

/-- What stands before the last slash of the path, unless that is nothing. -/
def folder? (f : InputFile) : Option String :=
  match Text.splitLast? '/' f.path.toList with
  | some (c :: folder, _) => some (String.ofList (c :: folder))
  | _ => none

end InputFile

inductive FileKind where
  | java
  | kotlin
  | xml
  | manifest
  | gradle
  deriving DecidableEq, Repr

namespace FileKind

def name : FileKind → String
  | java => "java"
  | kotlin => "kotlin"
  | xml => "xml"
  | manifest => "manifest"
  | gradle => "gradle"

def all : List FileKind := [java, kotlin, xml, manifest, gradle]

def manifestName : String := "AndroidManifest.xml"

/-- Whether a file of that name is of the kind. Here case counts. -/
def holds (name : String) : FileKind → Bool
  | java => Text.endsWith name ".java"
  | kotlin => Text.endsWith name ".kt"
  | xml => Text.endsWith name ".xml"
  | manifest => name = manifestName
  | gradle => Text.endsWith name ".gradle"

end FileKind

/-- Puts a text into an ascending list of distinct texts. -/
def insertText (s : String) : List String → List String
  | [] => [s]
  | t :: rest =>
    if s < t then s :: t :: rest else if s = t then t :: rest else t :: insertText s rest

/-- The shape of a set of files: how many, which of each kind, and their folders in ascending
order. -/
structure Shape where
  totalFiles : Nat
  files : FileKind → List String
  folders : List String

namespace Shape

def ofFiles (files : List InputFile) : Shape where
  totalFiles := files.length
  files kind := (files.filter fun f => kind.holds f.name).map InputFile.path
  folders := (files.filterMap InputFile.folder?).foldr insertText []

/-- The kinds of which there is a file, each with its files. -/
def byKind (s : Shape) : List (FileKind × List String) :=
  (FileKind.all.map fun kind => (kind, s.files kind)).filter fun (_, paths) => !paths.isEmpty

/-- A project with more files than this is large. -/
def largeProject : Nat := 100

def missingManifest : Issue where
  id := "missing_manifest"
  severity := .critical
  title := "Missing AndroidManifest.xml"
  description := "No AndroidManifest.xml file found in the project"
  message := "AndroidManifest.xml is required for Android applications"
  file := Issue.projectName
  occurrences := 0

def missingGradle : Issue where
  id := "missing_gradle"
  severity := .warning
  title := "No Gradle files found"
  description := "No build.gradle files found in the project"
  message := "Gradle build files are recommended for Android projects"
  file := Issue.projectName
  occurrences := 0

def large (files : Nat) : Issue where
  id := "large_project"
  severity := .info
  title := "Large Project Detected"
  description := s!"Project contains {files} files"
  message := "Consider modularizing large projects for better maintainability"
  file := Issue.projectName
  occurrences := 0

/-- What is to be said about the project as a whole. -/
def issues (s : Shape) : List Issue :=
  (if (s.files .manifest).isEmpty then [missingManifest] else []) ++
  (if (s.files .gradle).isEmpty then [missingGradle] else []) ++
  (if s.totalFiles > largeProject then [large s.totalFiles] else [])

end Shape

end MigrationAudit
