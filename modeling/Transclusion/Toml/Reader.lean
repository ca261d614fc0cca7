import Transclusion.Toml.Quoted
import Transclusion.Toml.Scalar
import Transclusion.Toml.Table

/-!
# Reading TOML texts

`Toml.read` gives the table that a TOML 1.1 text defines. Every reader takes the text from where it
stands and gives what it read with the rest.
-/

namespace Transclusion.Toml

/-! ## Layout -/

/-- Skips blanks, ends of lines and comments. -/
def skipLayout (inComment : Bool) : List Char → Except Error (List Char)
  | [] => .ok []
  | c :: rest =>
      if endsLine c rest then skipLayout (inComment && c = '\r') rest
      else if inComment then
        if isTextChar c then skipLayout true rest else .error (.badCharacter c)
      else if isSpace c then skipLayout false rest
      else if c = '#' then skipLayout true rest
      else .ok (c :: rest)

/-- Skips blanks within a line. -/
def skipSpaces (cs : List Char) : List Char :=
  cs.dropWhile isSpace

/-- Skips a character, and the blanks in front of it. -/
def skipMark (mark : Char) (cs : List Char) : Except Error (List Char) :=
  match skipSpaces cs with
  | c :: rest => if c = mark then .ok rest else .error (.expected mark.toString)
  | [] => .error (.expected mark.toString)

/-- Makes sure that nothing but a comment stands on the rest of a line. -/
def endLine (cs : List Char) : Except Error (List Char) :=
  match skipSpaces cs with
  | [] => .ok []
  | c :: rest =>
      if c = '#' || endsLine c rest then .ok (c :: rest) else .error (.expected "the end of the line")

/-! ## Keys -/

/-- The characters of a key without quotes. -/
def isBareKeyChar (c : Char) : Bool :=
  c.isAlphanum || c = '_' || c = '-'

/-- Reads a key without dots. -/
def readSimpleKey (cs : List Char) : Except Error (String × List Char) :=
  match cs with
  | '"' :: rest => do
      let (text, rest) ← readBasic false .text [] rest
      return (String.ofList text, rest)
  | '\'' :: rest => do
      let (text, rest) ← readLiteral false [] rest
      return (String.ofList text, rest)
  | cs =>
      match cs.takeWhile isBareKeyChar with
      | [] => .error (.expected "a key")
      | key => .ok (String.ofList key, cs.dropWhile isBareKeyChar)

/-- Reads a key with at most the given number of parts. -/
def readKeyParts : Nat → List Char → Except Error (List String × List Char)
  | 0, _ => .error (.expected "a key")
  | fuel + 1, cs => do
      let (key, rest) ← readSimpleKey (skipSpaces cs)
      match skipSpaces rest with
      | '.' :: rest =>
          let (keys, rest) ← readKeyParts fuel rest
          return (key :: keys, rest)
      | rest => return ([key], rest)

/-- How deep a document may be nested: arrays and tables in each other, and the parts of a key. -/
def depthLimit : Nat := 80

def readKey (cs : List Char) : Except Error (List String × List Char) := do
  let (key, rest) ← readKeyParts (cs.length + 1) cs
  if key.length ≤ depthLimit then return (key, rest) else throw .nestedTooDeep

/-! ## Items -/

/-- Characters that end a word. -/
def endsWord (c : Char) : Bool :=
  isSpace c || "\n\r,]\x7d[\x7b#=".toList.contains c

/-- Reads a word. A date goes on behind a blank if a time follows. -/
def readWord (cs : List Char) : List Char × List Char :=
  let word := cs.takeWhile (!endsWord ·)
  let rest := cs.dropWhile (!endsWord ·)
  match rest with
  | ' ' :: d :: more =>
      if isDate word && d.isDigit then
        (word ++ ' ' :: (d :: more).takeWhile (!endsWord ·), (d :: more).dropWhile (!endsWord ·))
      else (word, rest)
  | _ => (word, rest)

/-- Reads an item that is no array and no table. -/
def readScalar (cs : List Char) : Except Error (Item × List Char) :=
  match readText? cs with
  | some result => result.map fun (text, rest) => (.scalar (.str (String.ofList text)), rest)
  | none =>
      let (word, rest) := readWord cs
      if word = [] then .error (.expected "a value")
      else
        match scalar? word with
        | some item => .ok (item, rest)
        | none => .error (.badScalar (String.ofList word))

/-- Reads what a collection holds, with commas between the parts and perhaps one at the end, up to
the closing mark. `fuel` bounds the number of the parts. -/
def readParts (close : Char) (part : List Char → Except Error (α × List Char)) :
    (fuel : Nat) → List Char → Except Error (List α × List Char)
  | 0, _ => .error (.expected close.toString)
  | fuel + 1, cs => do
      match ← skipLayout false cs with
      | [] => throw (.expected close.toString)
      | c :: rest =>
          if c = close then return ([], rest)
          else
            let (a, rest) ← part (c :: rest)
            match ← skipLayout false rest with
            | [] => throw (.expected close.toString)
            | c :: rest =>
                if c = close then return ([a], rest)
                else if c = ',' then
                  let (as, rest) ← readParts close part fuel rest
                  return (a :: as, rest)
                else throw (.expected close.toString)

/-- Reads an assignment, given what may stand around the `=` and the reader of the item. -/
def readAssignment (skip : List Char → Except Error (List Char))
    (item : List Char → Except Error (Item × List Char)) (cs : List Char) :
    Except Error (Assignment × List Char) := do
  let (key, rest) ← readKey cs
  let (item, rest) ← item (← skip (← skipMark '=' (← skip rest)))
  return ((key, item), rest)

/-- Reads an item. Arrays and tables in it may be nested to the given depth. Within a table the key
and the item of an assignment may stand on lines of their own. -/
def readItem : (depth : Nat) → List Char → Except Error (Item × List Char)
  | 0, '[' :: _ | 0, '{' :: _ => .error .nestedTooDeep
  | depth + 1, '[' :: rest => do
      let (items, rest) ← readParts ']' (readItem depth) (rest.length + 1) rest
      return (.array items, rest)
  | depth + 1, '{' :: rest => do
      let (body, rest) ← readParts '}' (readAssignment (skipLayout false) (readItem depth))
        (rest.length + 1) rest
      return (← tableOf body, rest)
  | _, cs => readScalar cs

/-! ## Documents -/

/-- Reads a statement up to the end of its line. -/
def readStatement (cs : List Char) : Except Error (Statement × List Char) :=
  match cs with
  | '[' :: '[' :: rest => do
      let (key, rest) ← readKey rest
      match ← skipMark ']' rest with
      | ']' :: rest => return (.header key true, ← endLine rest)
      | _ => throw (.expected "]]")
  | '[' :: rest => do
      let (key, rest) ← readKey rest
      return (.header key false, ← endLine (← skipMark ']' rest))
  | cs => do
      let ((key, item), rest) ← readAssignment (.ok ∘ skipSpaces) (readItem depthLimit) cs
      return (.assignment key item, ← endLine rest)

/-- Reads at most the given number of statements. -/
def readStatements : (fuel : Nat) → List Char → Except Error (List Statement)
  | 0, _ => .ok []
  | fuel + 1, cs => do
      match ← skipLayout false cs with
      | [] => return []
      | cs =>
          let (statement, rest) ← readStatement cs
          return statement :: (← readStatements fuel rest)

/-- A text without the byte order mark it may start with. -/
def withoutMark : List Char → List Char
  | '\uFEFF' :: cs => cs
  | cs => cs

/-- The table that a text defines. -/
def read (text : String) : Except Error Item := do
  let cs := withoutMark text.toList
  documentOf (← readStatements (cs.length + 1) cs)

end Transclusion.Toml
