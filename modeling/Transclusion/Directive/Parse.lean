import Transclusion.Text.Cut

/-!
# Directives cut out of a text

A walk over the tokens of a text marks its directives in bytes. Here what is written in them is cut
out of the text, and their positions are read off the text before them. Every cut may fail, and then
all of it does (`Text.cut?`).

* `Position.cutAt?` — the position of a byte offset;
* `Directive.Walk.unquote?` — a text without the quotes around it;
* `Directive.Walk.Marks.cutOut?` — the directive at some marks;
* `Directive.Walk.parse?` — the directives of a text, each with its position.
-/

namespace Transclusion

open Directive.Walk (bytes)

/-- The position of a byte offset, read off the text before it. An offset beyond the end has the
line and column of the end. -/
def Position.cutAt? (text : List Char) (offset : Nat) : Option Position := do
  let before ← Text.cut? text ⟨0, min offset (bytes text)⟩
  let lineStart := (Text.lastNewline? before).elim 0 (· + 1)
  let behind ← Text.cut? before ⟨lineStart, bytes before⟩
  return ⟨before.count '\n' + 1, behind.length + 1, offset⟩

namespace Directive.Walk

/-- A text without the pair of equal quotes around it. -/
def unquote? (cs : List Char) : Option (List Char) :=
  if ['"', '\''].any fun q => 2 ≤ bytes cs && cs.head? = some q && cs.getLast? = some q then
    Text.cut? cs ⟨1, bytes cs - 1⟩
  else some cs

/-- The secondary text in a span, where there is one. -/
def cutSecondary? (text : List Char) : Option Span → Option (Option String)
  | none => some none
  | some span => do
      let cs ← unquote? (Text.trim (← Text.cut? text span))
      return if cs = [] then none else some (String.ofList cs)

/-- The directive at some marks, with the position of its colon. -/
def Marks.cutOut? (text : List Char) (m : Marks) : Option (Directive × Position) := do
  let source ← Text.cut? text m.span
  let label ← Text.cut? text m.label
  let target ← Text.cut? text m.target
  let secondary ← cutSecondary? text m.secondary
  let position ← Position.cutAt? text m.span.start
  return (⟨String.ofList label, String.ofList target, secondary, String.ofList source⟩, position)

/-- The directives of a text in order, each with the position of its colon. -/
def parse? (text : String) : Option (List (Directive × Position)) :=
  (marks text).mapM (Marks.cutOut? text.toList)

end Directive.Walk

end Transclusion
