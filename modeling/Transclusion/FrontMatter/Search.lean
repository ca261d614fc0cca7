import Transclusion.FrontMatter
import Transclusion.Text.Cut

/-!
# Front matter by bytes

The header and the body of a text as a search along its lines finds them. The search holds no text,
only byte offsets; the header and the body are cut out of the text at the end. Every cut may fail,
and then all of it does (`Text.cut?`).

* `turn?` — what the search comes to at one line;
* `search?` — the search from one line on;
* `spans?` — where the header and the body of a text lie;
* `cutApart?` — the header and the body of a text.
-/

namespace Transclusion.FrontMatter

open Directive.Walk (Span bytes)

/-- What the search comes to at a line. -/
inductive Turn
  /-- The line closes the header. -/
  | closed (header body : Span)
  /-- The line does not, and another one starts behind it. -/
  | next (start : Nat)
  /-- The line does not, and it is the last one. -/
  | ended
  deriving DecidableEq, Repr

/-- What the search comes to at the line that starts at the byte `start`. -/
def turn? (text : List Char) (headerStart start : Nat) : Option Turn := do
  let size := bytes text
  let behind ← Text.cut? text ⟨start, size⟩
  let stop := (Text.newline? behind).elim size (start + ·)
  let cs ← Text.cut? text ⟨start, stop⟩
  return if isClosing cs then .closed ⟨headerStart, start⟩ ⟨min (stop + 1) size, size⟩
    else if stop = size then .ended
    else .next (stop + 1)

/-- The search goes on behind the line. -/
theorem lt_of_turn?_eq_next {text : List Char} {headerStart start next : Nat}
    (h : turn? text headerStart start = some (.next next)) : start < next := by
  simp only [turn?, Option.bind_eq_bind, Option.bind_eq_some_iff, Option.pure_def,
    Option.some.injEq] at h
  obtain ⟨behind, -, cs, -, h⟩ := h
  split at h
  · exact nomatch h
  · split at h
    · exact nomatch h
    · next hstop =>
      obtain rfl := Turn.next.inj h
      cases hnewline : Text.newline? behind with
      | none => simp [hnewline] at hstop
      | some n =>
        simp only [Option.elim_some]
        omega

/-- The search from the line that starts at the byte `start` on. -/
def search? (text : List Char) (headerStart start : Nat) : Option (Option (Span × Span)) :=
  if _hstart : start ≤ bytes text then
    match _hturn : turn? text headerStart start with
    | none => none
    | some (.closed header body) => some (some (header, body))
    | some .ended => some none
    | some (.next next) => search? text headerStart next
  else some none
termination_by bytes text + 1 - start
decreasing_by
  have hlt := lt_of_turn?_eq_next _hturn
  omega

/-- Where the header and the body of a text lie, if it opens with a complete block. -/
def spans? (text : List Char) : Option (Option (Span × Span)) :=
  match Text.newline? text with
  | none => some none
  | some stop => do
      let first ← Text.cut? text ⟨0, stop⟩
      if isOpening first then search? text (stop + 1) (stop + 1) else return none

/-- The header and the body of a text that opens with a complete block. -/
def cutApart? (text : List Char) : Option (Option (List Char × List Char)) := do
  match ← spans? text with
  | none => return none
  | some (header, body) =>
      let header ← Text.cut? text header
      let body ← Text.cut? text body
      return some (header, body)

end Transclusion.FrontMatter
