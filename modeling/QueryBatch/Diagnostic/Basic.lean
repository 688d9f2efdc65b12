import QueryBatch.Diagnostic.Kind
import QueryBatch.OrderedMap
import QueryBatch.Source

/-!
# Diagnostics

One fault at one place: its kind, the span it points to, its message, and what may help with it (a fix, related
places, named details).

* `Diagnostic.of`: the bare diagnostic of a kind; `withDetail`, `withFix`, `relatedTo` and `withContext` add to it.
* `Diagnostic.line`: the diagnostic on one line, without its source.
-/

namespace QueryBatch

/-- A text to put in place of the span a diagnostic points to. -/
structure Fix where
  replacement : String
  description : String
  deriving DecidableEq, Repr

/-- Another place that a diagnostic speaks of. -/
structure Related where
  source : Nat
  span : Span
  message : String
  deriving DecidableEq, Repr

/-- A fault found in a source. -/
structure Diagnostic where
  kind : Diagnostic.Kind
  source : Nat
  span : Span
  message : String
  fix : Option Fix := none
  related : List Related := []
  context : OrderedMap String := .empty

namespace Diagnostic

/-! ## Building -/

/-- A diagnostic with the fallback message of its kind. -/
def of (source : Nat) (kind : Kind) (span : Span) : Diagnostic :=
  { kind, source, span, message := kind.message none }

/-- Gives the message a detail. -/
def withDetail (d : Diagnostic) (detail : String) : Diagnostic :=
  { d with message := d.kind.message (some detail) }

/-- Adds a related place after those there are. -/
def relatedTo (d : Diagnostic) (source : Nat) (span : Span) (message : String) : Diagnostic :=
  { d with related := d.related ++ [⟨source, span, message⟩] }

/-- Proposes a replacement for the span. -/
def withFix (d : Diagnostic) (description replacement : String) : Diagnostic :=
  { d with fix := some ⟨replacement, description⟩ }

/-- Records a named detail. -/
def withContext (d : Diagnostic) (key value : String) : Diagnostic :=
  { d with context := d.context.insert key value }

/-! ## Views -/

def code (d : Diagnostic) : String := d.kind.code

/-- The ends of a span with two dots between them. -/
def rangeText (span : Span) : String := toString span.start ++ ".." ++ toString span.stop

/-- The diagnostic on one line. -/
def line (d : Diagnostic) : String :=
  let head := "error[" ++ d.code ++ "] at " ++ rangeText d.span ++ ": " ++ d.message
  let fix := match d.fix with
    | some fix => " (fix: " ++ fix.description ++ ")"
    | none => ""
  let related := d.related.map fun r => " (related: " ++ r.message ++ " at " ++ rangeText r.span ++ ")"
  head ++ fix ++ String.join related

end Diagnostic

/-- The diagnostics one to a line. -/
def renderLines (ds : List Diagnostic) : String := "\n".intercalate (ds.map Diagnostic.line)

end QueryBatch
