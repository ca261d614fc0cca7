/-!
# Positions in a text

A position is a line, a column and a byte offset. Lines and columns count from one and columns
count characters; the offset counts the bytes of the text's UTF-8 form.

* `Position.next`, `Position.advance` — the position behind a character, and behind a text.
-/

namespace Transclusion

/-- A place in a text. -/
structure Position where
  line : Nat
  column : Nat
  offset : Nat
  deriving DecidableEq, Repr, Inhabited

namespace Position

/-- The position of the first character. -/
def start : Position := ⟨1, 1, 0⟩

/-- The position behind one character: a newline opens the next line. -/
def next (p : Position) (c : Char) : Position :=
  if c = '\n' then ⟨p.line + 1, 1, p.offset + c.utf8Size⟩
  else ⟨p.line, p.column + 1, p.offset + c.utf8Size⟩

/-- The position behind a text that starts at `p`. -/
def advance (p : Position) (cs : List Char) : Position :=
  cs.foldl next p

@[simp] theorem advance_nil (p : Position) : p.advance [] = p := rfl

@[simp] theorem advance_cons (p : Position) (c : Char) (cs : List Char) :
    p.advance (c :: cs) = (p.next c).advance cs := rfl

theorem advance_append (p : Position) (cs ds : List Char) :
    p.advance (cs ++ ds) = (p.advance cs).advance ds :=
  List.foldl_append

end Position

end Transclusion
