import Transclusion.Glob.Expression

/-!
# Globs

A glob is a pattern for paths: `?` stands for one byte, `*` for any number of bytes, `[a-z]` for a
byte of a class, and `{a,b}` for one of several patterns. Two stars between slashes, or at either
end, stand for any number of directories. A backslash takes the next character as it is.

* `Token`, `Glob` — a glob as its parts;
* `Glob.expression` — the texts it stands for;
* `Glob.isMatch` — whether a path is one of them.

Whether `?` and `*` may stand for a slash is up to the use (`Options.separate`): the patterns of
document keys let them, and ignore files do not.
-/

namespace Transclusion

namespace Glob

/-- How globs are read and matched. -/
structure Options where
  /-- `?` and `*` do not stand for a slash. -/
  separate : Bool := false
  /-- A `[` without its `]` stands for itself. -/
  lenientClass : Bool := false
  deriving DecidableEq, Repr, Inhabited

/-- A part of a glob. -/
inductive Token
  | literal (c : Char)
  /-- One byte. -/
  | any
  /-- Any number of bytes. -/
  | star
  /-- Any number of directories at the start, with the slash behind them. -/
  | directories
  /-- A slash and anything behind it, at the end. -/
  | everythingBelow
  /-- A slash, any number of directories and the slash behind them. -/
  | directoriesBetween
  /-- One byte of a class, or of its complement. -/
  | oneOf (negated : Bool) (ranges : List (Char × Char))
  /-- One of several globs. -/
  | alternatives (branches : List (List Token))
  deriving Repr, Inhabited

end Glob

/-- A pattern for paths. -/
structure Glob where
  options : Glob.Options
  tokens : List Glob.Token
  deriving Repr, Inhabited

namespace Glob

/-! ## What a glob stands for -/

def bytesOf (c : Char) : List UInt8 :=
  (String.ofList [c]).toUTF8.toList

/-- The byte ranges of a range of characters: the bytes of either end stand for themselves, but the
last byte of the first and the first byte of the last are the ends of a range. -/
def byteRanges (range : Char × Char) : List (UInt8 × UInt8) :=
  let own := fun b : UInt8 => (b, b)
  let first := bytesOf range.1
  let last := bytesOf range.2
  if range.1 = range.2 then first.map own
  else
    match first.getLast?, last.head? with
    | some low, some high =>
        first.dropLast.map own ++ (low, high) :: (last.drop 1).map own
    | _, _ => []

mutual

/-- The texts that a token stands for; none if it is a group without a pattern that says
anything. -/
def Token.expression? (separate : Bool) : Token → Option Expression
  | .literal c =>
      some (.sequence ((bytesOf c).map fun b => .one (.single b)))
  | .any => some (.one (if separate then .notSlash else .all))
  | .star => some (.many (if separate then .notSlash else .all))
  | .directories =>
      some (.either .empty (.either (.one .slash) (.seq (.many .all) (.one .slash))))
  | .everythingBelow => some (.seq (.one .slash) (.many .all))
  | .directoriesBetween =>
      some (.either (.one .slash) (.seq (.one .slash) (.seq (.many .all) (.one .slash))))
  | .oneOf negated ranges => some (.one ⟨negated, ranges.flatMap byteRanges⟩)
  | .alternatives branches =>
      match branchExpressions separate branches with
      | [] => none
      | e :: es => some (.choice e es)

/-- The texts that some tokens stand for one behind the other. -/
def Token.expressions (separate : Bool) : List Token → List Expression
  | [] => []
  | token :: tokens =>
      match token.expression? separate with
      | some e => e :: Token.expressions separate tokens
      | none => Token.expressions separate tokens

/-- The texts that the branches of a group stand for. A branch that says nothing is left out, so
that a group never stands for the empty text on its account. -/
def branchExpressions (separate : Bool) : List (List Token) → List Expression
  | [] => []
  | branch :: branches =>
      match Token.expressions separate branch with
      | [] => branchExpressions separate branches
      | e :: es => .sequence (e :: es) :: branchExpressions separate branches

end

/-- The texts that a glob stands for. The glob `**` stands for all of them. -/
def expression (glob : Glob) : Expression :=
  match glob.tokens with
  | [.directories] => .many .all
  | tokens => .sequence (Token.expressions glob.options.separate tokens)

/-! ## Names

A path that ends in `..` has no last name. Globs that can be settled by the last name of a path, or
by its extension, do not match such a path. -/

/-- The text of tokens that are all literal. -/
def literalText? (tokens : List Token) : Option (List Char) :=
  tokens.mapM fun
    | .literal c => some c
    | _ => none

/-- Whether the tokens spell a single name. -/
def isNameText (tokens : List Token) : Bool :=
  match literalText? tokens with
  | some cs => cs ≠ [] && !cs.contains '/'
  | none => false

/-- Whether the tokens spell an extension: a point, and a text without point and slash. -/
def isExtensionText (tokens : List Token) : Bool :=
  match literalText? tokens with
  | some ('.' :: cs) => !cs.contains '.' && !cs.contains '/'
  | _ => false

/-- Whether the last point of the tokens, and what follows it, are literal and in one name. -/
def endsInExtension (tokens : List Token) : Bool :=
  let tail := tokens.reverse.takeWhile fun
    | .literal c => c ≠ '.' && c ≠ '/'
    | _ => false
  match tokens.reverse.drop tail.length with
  | .literal '.' :: _ => true
  | _ => false

/-- Whether a glob is a literal text behind a star, so that only the end of a path counts. -/
def isSuffix (glob : Glob) : Bool :=
  match glob.tokens with
  | .directories :: .star :: rest | .star :: rest =>
      !glob.options.separate && (literalText? rest).any (· ≠ [])
  | .directories :: rest => (literalText? rest).any (· ≠ [])
  | _ => false

/-- Whether a glob is settled by the last name of a path. -/
def looksAtName (glob : Glob) : Bool :=
  match glob.tokens with
  | .directories :: .star :: rest =>
      isExtensionText rest || (!glob.isSuffix && endsInExtension rest)
  | .star :: rest =>
      (!glob.options.separate && isExtensionText rest) ||
        (!glob.isSuffix && endsInExtension rest)
  | .directories :: rest => isNameText rest || (!glob.isSuffix && endsInExtension rest)
  | tokens => (literalText? tokens).isNone && endsInExtension tokens

/-- Whether the last name of a path is `..`. -/
def endsAbove (path : List UInt8) : Bool :=
  path.reverse.takeWhile (· ≠ 0x2F) = [0x2E, 0x2E]

def isMatch (glob : Glob) (path : String) : Bool :=
  let bytes := path.toUTF8.toList
  glob.expression.isMatch bytes && !(endsAbove bytes && glob.looksAtName)

end Glob

end Transclusion
