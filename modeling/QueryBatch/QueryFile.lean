import QueryBatch.Document.Basic
import QueryBatch.Text.Checksum

/-!
# Files of a batch

A query text taken from a file, parsed, with what a build knows about it.
-/

namespace QueryBatch

/-- A parsed text of a batch. A hook is a query that runs inside a component; a static query gets an identifier. -/
structure QueryFile where
  source : Source
  document : Document
  /-- A checksum of the text, by default that of its bytes. -/
  hash : Nat := Text.contentHash source.text
  isHook : Bool := false
  isStaticQuery : Bool := false
  deriving Inhabited

namespace QueryFile

def path (file : QueryFile) : String := file.source.path

/-- The sources of a batch. -/
def sources (files : List QueryFile) : Sources := files.map QueryFile.source

end QueryFile

end QueryBatch
