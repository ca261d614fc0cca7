import Transclusion.Directive.Walk

/-!
# Cutting a text by bytes

Where to cut a text is told in bytes of its UTF-8 form. A cut is only possible between characters
and inside the text.

* `drop?`, `take?` — a text without its first bytes, and these bytes;
* `cut?` — the text in a span of bytes;
* `newline?`, `lastNewline?` — where the first and the last newline of a text stand.
-/

namespace Transclusion.Text

open Directive.Walk (Span bytes)

/-- A text without its first `n` bytes; none if that would cut a character, or if there are not so
many. -/
def drop? : Nat → List Char → Option (List Char)
  | 0, cs => some cs
  | _ + 1, [] => none
  | n + 1, c :: cs => if c.utf8Size ≤ n + 1 then drop? (n + 1 - c.utf8Size) cs else none

/-- The first `n` bytes of a text, under the same conditions. -/
def take? : Nat → List Char → Option (List Char)
  | 0, _ => some []
  | _ + 1, [] => none
  | n + 1, c :: cs =>
      if c.utf8Size ≤ n + 1 then (take? (n + 1 - c.utf8Size) cs).map (c :: ·) else none

/-- The text in a span of bytes. None if the span ends before it starts, or if one of its ends lies
inside a character or outside the text. -/
def cut? (text : List Char) (span : Span) : Option (List Char) := do
  if span.start ≤ span.stop then take? (span.stop - span.start) (← drop? span.start text) else none

/-- The bytes before the first newline. -/
def newline? (cs : List Char) : Option Nat :=
  if cs.contains '\n' then some (bytes (cs.takeWhile (· ≠ '\n'))) else none

/-- The bytes before the last newline. -/
def lastNewline? (cs : List Char) : Option Nat :=
  match cs.reverse.dropWhile (· ≠ '\n') with
  | [] => none
  | _ :: before => some (bytes before.reverse)

end Transclusion.Text
