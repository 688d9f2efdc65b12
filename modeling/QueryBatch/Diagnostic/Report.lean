import QueryBatch.Diagnostic.Render

/-!
# Reported errors

Diagnostics as a build takes them: with a published number, a place in a file, and named details.

* `Diagnostic.report`: the error that a diagnostic is reported as. Its details end in the rendered diagnostic, under
  `sourceMessage`, if the source is known.
-/

namespace QueryBatch

/-- A diagnostic in terms of files. -/
structure ReportedError where
  id : String
  filePath : String
  location : Option Location
  message : String
  context : OrderedMap String

/-- The error that a diagnostic is reported as. -/
def Diagnostic.report (d : Diagnostic) (sources : Sources) : ReportedError :=
  match sources[d.source]? with
  | some source =>
    { id := d.code, filePath := source.path, location := some (source.location d.span.start), message := d.message
      context := d.context.insert "sourceMessage" (d.render sources) }
  | none => { id := d.code, filePath := "", location := none, message := d.message, context := d.context }

/-- The errors that diagnostics are reported as, in order. -/
def reportAll (ds : List Diagnostic) (sources : Sources) : List ReportedError := ds.map fun d => d.report sources

end QueryBatch
