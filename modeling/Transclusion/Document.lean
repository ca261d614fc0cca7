import Transclusion.KeyMap
import Transclusion.Metadata

/-!
# Documents

A document is a text with metadata; a document set holds the documents of one run under their
keys, in key order. That order is the order in which a run visits documents and in which a
folder is put together.
-/

namespace Transclusion

/-- A text and the structured data that belongs to it. The front matter of a file is normally
already split off its text into `metadata`. -/
structure Document where
  content : String
  metadata : Metadata := .empty
  deriving DecidableEq, Repr, Inhabited

/-- The documents of one run under their keys. -/
abbrev DocumentSet := KeyMap Document

end Transclusion
