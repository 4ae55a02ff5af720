import MigrationAudit.Failure

namespace MigrationAudit

inductive Level where
  | debug
  | info
  | warn
  deriving DecidableEq, Repr

def Level.name : Level → String
  | debug => "DEBUG"
  | info => "INFO"
  | warn => "WARN"

/-- Debug is the lowest. -/
def Level.rank : Level → Nat
  | debug => 0
  | info => 1
  | warn => 2

/-- Something worth telling the operator that is no part of the answer. -/
inductive Event where
  | unknownView (name : String)
  | noInput
  | unsupportedName (path : String)
  | unreadable (path : String)
  | notText (path : String)
  | declined (rule file : String)
  | undecided (rule file : String) (error : JudgementError)
  | oddVersion (error : JudgementError)
  | analyzed (files supplied issues : Nat)
  | excluded (path : String)
  | readFailed (path : String) (error : ReadError)
  | usingConfig (path : String)
  deriving DecidableEq, Repr

namespace Event

def level : Event → Level
  | unreadable _ | notText _ | undecided .. | readFailed .. => .warn
  | analyzed .. => .info
  | _ => .debug

def message : Event → String
  | unknownView name => s!"unknown severity filter '{name}', showing all issues"
  | noInput => "no input files; nothing to analyze"
  | unsupportedName path => s!"skipping {path}: unsupported extension"
  | unreadable path => s!"{path} could not be read; no rules applied"
  | notText path => s!"{path} is not valid UTF-8 text; no rules applied"
  | declined rule file => s!"rule '{rule}' suppressed for {file}"
  | undecided rule file error => s!"rule '{rule}' failed on {file}: {error.message}; skipping"
  | oddVersion error => error.message
  | analyzed files supplied issues =>
    s!"analyzed {files} files ({supplied} supplied), {issues} issues"
  | excluded path => s!"excluded by config: {path}"
  | readFailed path error => s!"failed to read {path}: {error.message}"
  | usingConfig path => s!"using config {path}"

end Event

/-- A value and the events that led to it, first one first. -/
structure Logged (α : Type) where
  value : α
  events : List Event
  deriving Repr

namespace Logged

variable {α β : Type}

instance : Monad Logged where
  pure a := ⟨a, []⟩
  bind x f := ⟨(f x.value).value, x.events ++ (f x.value).events⟩

def tell (e : Event) : Logged Unit := ⟨(), [e]⟩

/-- Applies `f` to each element in turn and collects the values. -/
def each (xs : List α) (f : α → Logged β) : Logged (List β) :=
  ⟨xs.map fun x => (f x).value, xs.flatMap fun x => (f x).events⟩

@[simp] theorem value_pure (a : α) : (pure a : Logged α).value = a := rfl
@[simp] theorem events_pure (a : α) : (pure a : Logged α).events = [] := rfl

@[simp] theorem value_bind (x : Logged α) (f : α → Logged β) :
    (x >>= f).value = (f x.value).value := rfl

@[simp] theorem events_bind (x : Logged α) (f : α → Logged β) :
    (x >>= f).events = x.events ++ (f x.value).events := rfl

@[simp] theorem value_each (xs : List α) (f : α → Logged β) :
    (each xs f).value = xs.map fun x => (f x).value := rfl

end Logged

end MigrationAudit
