import Transclusion.Glob.Basic

/-!
# Nesting in globs

The expression of a glob is a tree. A group is a level of it, several patterns in a group are
another one, and so is a sequence of more than one part. The limit on the levels bounds the depth of
any work on the tree; a glob beyond it can be read, but it cannot be used.

* `Glob.levels`, `Glob.isTooDeep` — how deep the expression of a glob is;
* `Glob.expressionText` — the expression in the common writing of regular expressions;
* `Glob.nestingMessage` — the report on a glob that is too deep.
-/

namespace Transclusion.Glob

/-! ## Levels -/

/-- The size of a part of an expression. -/
structure Extent where
  /-- How many parts it adds to the sequence it stands in. -/
  width : Nat
  /-- How many levels it has. -/
  levels : Nat
  deriving DecidableEq, Repr

/-- The levels of a sequence with the given size: a single part needs no level of its own. -/
def Extent.sequenceLevels (e : Extent) : Nat :=
  if e.width ≤ 1 then e.levels else e.levels + 1

mutual

/-- The size of the expression of a token. -/
def Token.extent (separate : Bool) : Token → Extent
  | .literal c => ⟨(bytesOf c).length, 0⟩
  | .any => ⟨1, if separate then 1 else 0⟩
  | .star => ⟨1, if separate then 2 else 1⟩
  | .directories | .directoriesBetween => ⟨1, 4⟩
  | .everythingBelow => ⟨2, 1⟩
  | .oneOf _ ranges => ⟨1, if (ranges.flatMap byteRanges).length = 1 then 1 else 2⟩
  | .alternatives branches =>
      match branchLevels separate branches with
      | [] => ⟨0, 0⟩
      | [levels] => ⟨1, levels + 1⟩
      | all => ⟨1, all.foldl max 0 + 2⟩

/-- The size of the expressions of some tokens. -/
def Token.extents (separate : Bool) : List Token → Extent
  | [] => ⟨0, 0⟩
  | token :: tokens =>
      let first := token.extent separate
      let others := Token.extents separate tokens
      ⟨first.width + others.width, max first.levels others.levels⟩

/-- The levels of the branches of a group that say something. -/
def branchLevels (separate : Bool) : List (List Token) → List Nat
  | [] => []
  | branch :: branches =>
      let extent := Token.extents separate branch
      if extent.width = 0 then branchLevels separate branches
      else extent.sequenceLevels :: branchLevels separate branches

end

/-- The levels of the expression of a glob. The whole is a sequence, for it starts and ends with the
ends of the text. -/
def levels (glob : Glob) : Nat :=
  (Token.extents glob.options.separate glob.tokens).levels + 1

/-- How many levels the expression of a glob may have. -/
def levelLimit : Nat := 250

def isTooDeep (glob : Glob) : Bool :=
  levelLimit < glob.levels

/-! ## Expressions as text -/

/-- A byte in a regular expression. -/
def byteText (b : UInt8) : String :=
  let c := Char.ofNat b.toNat
  if 0x80 ≤ b then "\\x" ++ String.ofList (Nat.toDigits 16 b.toNat)
  else if "\\.+*?()|[]\x7b\x7d^$#&-~".toList.contains c then "\\" ++ c.toString
  else c.toString

/-- A character in a regular expression over bytes. -/
def charText (c : Char) : String :=
  String.join ((bytesOf c).map byteText)

/-- A range of characters in a class. -/
def rangeText (range : Char × Char) : String :=
  if range.1 = range.2 then charText range.1 else charText range.1 ++ "-" ++ charText range.2

mutual

/-- The expression of a token, as text. -/
def Token.text (separate : Bool) : Token → String
  | .literal c => charText c
  | .any => if separate then "[^/]" else "."
  | .star => if separate then "[^/]*" else ".*"
  | .directories => "(?:/?|.*/)"
  | .everythingBelow => "/.*"
  | .directoriesBetween => "(?:/|/.*/)"
  | .oneOf negated ranges =>
      "[" ++ (if negated then "^" else "") ++ String.join (ranges.map rangeText) ++ "]"
  | .alternatives branches =>
      match branchTexts separate branches with
      | [] => ""
      | texts => "(?:" ++ String.intercalate "|" texts ++ ")"

/-- The expressions of some tokens, as text. -/
def Token.texts (separate : Bool) : List Token → String
  | [] => ""
  | token :: tokens => token.text separate ++ Token.texts separate tokens

/-- The expressions of the branches of a group that say something, as texts. -/
def branchTexts (separate : Bool) : List (List Token) → List String
  | [] => []
  | branch :: branches =>
      match Token.texts separate branch with
      | "" => branchTexts separate branches
      | text => text :: branchTexts separate branches

end

/-- The expression of a glob, as text. -/
def expressionText (glob : Glob) : String :=
  let inner :=
    match glob.tokens with
    | [.directories] => ".*"
    | tokens => Token.texts glob.options.separate tokens
  "(?-u)^" ++ inner ++ "$"

/-- The sentence that reports a glob that is nested too deep. It quotes the expression of a glob
that ends in an extension: others are reported by their place among the globs, which is the
first. -/
def nestingMessage (glob : Glob) : String :=
  let reason := "error parsing pattern 0"
  if endsInExtension glob.tokens then
    "error parsing glob '" ++ glob.expressionText ++ "': " ++ reason
  else reason

end Transclusion.Glob
