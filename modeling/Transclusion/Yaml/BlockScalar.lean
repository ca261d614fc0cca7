import Transclusion.Yaml.Character

/-!
# Block texts

A text written in lines of their own below a header: `|` keeps its breaks and `>` folds them. The
header may name the indentation of the lines and what becomes of the breaks at the end.

* `readHeader` — the header behind its indicator;
* `readBlockScalar` — header and lines.
-/

namespace Transclusion.Yaml

/-- What becomes of the breaks behind the last line: all go, the first stays, or all stay. -/
inductive Chomping
  | strip
  | clip
  | keep
  deriving DecidableEq, Repr

/-- What the header of a block text says. -/
structure BlockHeader where
  chomping : Chomping
  /-- How much deeper than its parent the text is indented; if none, as its lines show. -/
  increment : Option Nat
  deriving DecidableEq, Repr

/-- The chomping that a character asks for. -/
def chomping? (c : Char) : Option Chomping :=
  match c with
  | '-' => some .strip
  | '+' => some .keep
  | _ => none

/-- The increment that a character asks for; a zero is an error. -/
def increment? (c : Char) : Except Error (Option Nat) :=
  if c = '0' then .error .badBlockHeader
  else if c.isDigit then .ok (some (c.toNat - '0'.toNat))
  else .ok none

/-- The indicators of a header, in either order, and the rest of its line. -/
def readIndicators (cs : List Char) : Except Error (BlockHeader × List Char) := do
  match cs with
  | [] => return (⟨.clip, none⟩, [])
  | a :: rest =>
      match chomping? a with
      | some chomping =>
          match rest with
          | [] => return (⟨chomping, none⟩, [])
          | b :: rest' =>
              match ← increment? b with
              | some n => return (⟨chomping, some n⟩, rest')
              | none => return (⟨chomping, none⟩, rest)
      | none =>
          match ← increment? a with
          | none => return (⟨.clip, none⟩, cs)
          | some n =>
              match rest with
              | [] => return (⟨.clip, some n⟩, [])
              | b :: rest' =>
                  match chomping? b with
                  | some chomping => return (⟨chomping, some n⟩, rest')
                  | none => return (⟨.clip, some n⟩, rest)

/-- The text behind the end of a line that may only hold spacing and a comment. -/
def readLineEnd (refusal : Error) (cs : List Char) : Except Error (List Char) :=
  let rest := cs.dropWhile isSpacing
  let rest := if rest.head? = some '#' then rest.dropWhile (fun c => !isBreak c) else rest
  match rest with
  | [] => .ok []
  | c :: rest => if isBreak c then .ok rest else .error refusal

/-- The header of a block text, and the text behind its line. -/
def readHeader (cs : List Char) : Except Error (BlockHeader × List Char) := do
  let (header, rest) ← readIndicators cs
  return (header, ← readLineEnd .badBlockHeader rest)

/-- What stands between two lines of a block text. -/
structure LineGap where
  /-- The breaks of the empty lines. -/
  breaks : List Char
  /-- The widest indentation seen. -/
  widest : Nat
  /-- The column of the next character. -/
  column : Nat
  rest : List Char

/-- Skips empty lines and the indentation of the next line; where the indentation is not known
yet, all spaces. `breaks` are latest first. -/
def skipEmptyLines (indent : Option Nat) (breaks : List Char) (widest column : Nat) :
    List Char → Except Error LineGap
  | [] => .ok ⟨breaks.reverse, max widest column, column, []⟩
  | c :: rest =>
      let shallow := indent.all fun n => column < n
      if c = ' ' && shallow then skipEmptyLines indent breaks widest (column + 1) rest
      else if c = '\t' && shallow then .error .tabInIndentation
      else if isBreak c then skipEmptyLines indent (c :: breaks) (max widest column) 0 rest
      else .ok ⟨breaks.reverse, max widest column, column, c :: rest⟩

/-- The break behind a line, if the text does not end there, and the text behind it. -/
def splitBreak : List Char → List Char × List Char
  | [] => ([], [])
  | c :: rest => ([c], rest)

/-- The breaks that a block text keeps at its end: of the break behind its last line and of the
empty lines after it. -/
def Chomping.kept (chomping : Chomping) (lead breaks : List Char) : List Char :=
  match chomping with
  | .strip => []
  | .clip => lead
  | .keep => lead ++ breaks

/-- Reads the lines of a block text. `text` is what was read so far, latest first; `lead` is the
break behind the last line, `startsBlank` whether that line starts with spacing, and `gap` what
stands before the next line. Every line takes one of `lines`. -/
def readLines (literal : Bool) (indent : Nat) (chomping : Chomping) :
    Nat → List Char → List Char → Bool → LineGap → Except Error (List Char × List Char)
  | 0, text, _, _, gap => .ok (text.reverse, gap.rest)
  | lines + 1, text, lead, startsBlank, gap =>
      match gap.rest.head?, decide (gap.column = indent) with
      | some c, true => do
          let folds := !literal && lead = ['\n'] && !startsBlank && !isSpacing c
          let joint := if folds then (if gap.breaks = [] then [' '] else []) else lead
          let line := gap.rest.takeWhile fun c => !isBreak c
          let (next, rest) := splitBreak (gap.rest.dropWhile fun c => !isBreak c)
          readLines literal indent chomping lines ((joint ++ gap.breaks ++ line).reverse ++ text)
            next (isSpacing c) (← skipEmptyLines (some indent) [] 0 0 rest)
      | _, _ => .ok (text.reverse ++ chomping.kept lead gap.breaks, gap.rest)

/-- Reads a block text behind its indicator. `parent` is the indentation of the block around it,
none at the top. -/
def readBlockScalar (literal : Bool) (parent : Option Nat) (cs : List Char) :
    Except Error (List Char × List Char) := do
  let (header, rest) ← readHeader cs
  let known := header.increment.map (· + parent.getD 0)
  let gap ← skipEmptyLines known [] 0 0 rest
  let least := match parent with
    | some n => n + 1
    | none => 0
  let indent := known.getD (max (max gap.widest least) 1)
  readLines literal indent header.chomping (rest.length + 1) [] [] false gap

end Transclusion.Yaml
