import Transclusion.Yaml.Lexer

/-!
# The tree of a YAML document

A node is a text, a sequence, a mapping, or an alias for a node that carries an anchor. The
grammar is read by recursive descent over the tokens; `Node.ofTokens?` reads one document and
refuses a second one.

What is missing reads as an empty plain text: a key without a value, an item without content, a
tag or an anchor on nothing.

The readers take a bound `depth` on how deeply they call each other. Two calls in a row take at
least one token, so twice the number of tokens is enough.
-/

namespace Transclusion.Yaml

/-- A node of a YAML document; `α` is what anchors are told apart by. -/
inductive Node (α : Type)
  | alias (target : α)
  | scalar (anchor : Option α) (tag : Option Octets) (plain : Bool) (text : String)
  | sequence (anchor : Option α) (tag : Option Octets) (items : List (Node α))
  | mapping (anchor : Option α) (tag : Option Octets) (entries : List (Node α × Node α))
  deriving Repr

/-- A node as it is written: anchors have names. -/
abbrev NamedNode := Node String

namespace Node

/-- What stands for a missing node. -/
def empty : NamedNode := .scalar none none true ""

/-- The handles of tags with what they stand for. -/
abbrev Handles := List (String × Octets)

/-- The handles every document knows. -/
def knownHandles : Handles := [("!", [0x21]), ("!!", "tag:yaml.org,2002:".toUTF8.toList)]

/-- The tag that a handle and a suffix denote. -/
def expandTag (handles : Handles) (handle : String) (suffix : Octets) : Except Error Octets :=
  if handle = "" then .ok suffix
  else
    match handles.lookup handle with
    | some expansion => .ok (expansion ++ suffix)
    | none => .error (.undefinedTagHandle handle)

/-- The anchor and the tag in front of a node, in either order. -/
def readProperties (handles : Handles) (ts : List Token) :
    Except Error (Option String × Option Octets × List Token) :=
  match ts with
  | .anchor name :: .tag handle suffix :: rest => do
      return (some name, some (← expandTag handles handle suffix), rest)
  | .tag handle suffix :: .anchor name :: rest => do
      return (some name, some (← expandTag handles handle suffix), rest)
  | .anchor name :: rest => .ok (some name, none, rest)
  | .tag handle suffix :: rest => do
      return (none, some (← expandTag handles handle suffix), rest)
  | _ => .ok (none, none, ts)

/-- The tokens that a value inside a block mapping ends before. -/
def endsBlockEntry (ts : List Token) : Bool :=
  match ts with
  | [] | .key :: _ | .value :: _ | .blockEnd :: _ => true
  | _ => false

/-- The tokens that an item of a block sequence ends before. -/
def endsBlockItem (ts : List Token) : Bool :=
  match ts with
  | [] | .blockEntry :: _ | .blockEnd :: _ => true
  | _ => false

/-- The tokens that an item of a sequence without a level of its own ends before. -/
def endsFlatItem (ts : List Token) : Bool :=
  endsBlockItem ts || endsBlockEntry ts

/-- The tokens that a part of a flow sequence ends before. -/
def endsFlowItem (ts : List Token) : Bool :=
  match ts with
  | .flowEntry :: _ | .flowSequenceEnd :: _ => true
  | _ => false

/-- The tokens that a part of a flow mapping ends before. -/
def endsFlowEntry (ts : List Token) : Bool :=
  match ts with
  | .flowEntry :: _ | .flowMappingEnd :: _ => true
  | _ => false

/-- Whether the next token introduces a value. -/
def atValue (ts : List Token) : Bool :=
  ts.head? = some .value

/-! ## The grammar -/

mutual

/-- Reads a node. In a block context it may be a block collection, and with `flat` a sequence at
the indentation of the mapping around it. -/
def read (handles : Handles) (depth : Nat) (block flat : Bool) (ts : List Token) :
    Except Error (NamedNode × List Token) :=
  match depth with
  | 0 => .error .tooDeep
  | depth + 1 => do
      match ts with
      | .alias name :: rest => return (.alias name, rest)
      | _ =>
          let (anchor, tag, rest) ← readProperties handles ts
          match rest, block with
          | .scalar plain text :: rest, _ =>
              return (.scalar anchor tag plain text, rest)
          | .flowSequenceStart :: rest, _ => do
              let (items, rest) ← readFlowItems handles depth true rest
              return (.sequence anchor tag items, rest)
          | .flowMappingStart :: rest, _ => do
              let (entries, rest) ← readFlowEntries handles depth true rest
              return (.mapping anchor tag entries, rest)
          | .blockSequenceStart :: rest, true => do
              let (items, rest) ← readBlockItems handles depth rest
              return (.sequence anchor tag items, rest)
          | .blockMappingStart :: rest, true => do
              let (entries, rest) ← readBlockEntries handles depth rest
              return (.mapping anchor tag entries, rest)
          | _, _ =>
              if flat && rest.head? = some .blockEntry then do
                let (items, rest) ← readFlatItems handles depth rest
                return (.sequence anchor tag items, rest)
              else if anchor.isSome || tag.isSome then
                return (.scalar anchor tag true "", rest)
              else .error (.unexpectedToken "node content")

/-- Reads a node, or an empty one if the part of the collection around it is over. -/
def readOr (handles : Handles) (depth : Nat) (block flat ended : Bool) (ts : List Token) :
    Except Error (NamedNode × List Token) :=
  match depth with
  | 0 => .error .tooDeep
  | depth + 1 => if ended then .ok (empty, ts) else read handles depth block flat ts

/-- Reads the items of a block sequence up to its end. -/
def readBlockItems (handles : Handles) (depth : Nat) (ts : List Token) :
    Except Error (List NamedNode × List Token) :=
  match depth with
  | 0 => .error .tooDeep
  | depth + 1 => do
      match ts with
      | .blockEntry :: rest =>
          let (item, rest) ← readOr handles depth true false (endsBlockItem rest) rest
          let (items, rest) ← readBlockItems handles depth rest
          return (item :: items, rest)
      | .blockEnd :: rest => return ([], rest)
      | _ => .error (.unexpectedToken "'-' indicator")

/-- Reads the items of a sequence that has no indentation of its own. -/
def readFlatItems (handles : Handles) (depth : Nat) (ts : List Token) :
    Except Error (List NamedNode × List Token) :=
  match depth with
  | 0 => .error .tooDeep
  | depth + 1 => do
      match ts with
      | .blockEntry :: rest =>
          let (item, rest) ← readOr handles depth true false (endsFlatItem rest) rest
          let (items, rest) ← readFlatItems handles depth rest
          return (item :: items, rest)
      | _ => return ([], ts)

/-- Reads the entries of a block mapping up to its end. -/
def readBlockEntries (handles : Handles) (depth : Nat) (ts : List Token) :
    Except Error (List (NamedNode × NamedNode) × List Token) :=
  match depth with
  | 0 => .error .tooDeep
  | depth + 1 => do
      match ts with
      | .key :: rest =>
          let (key, rest) ← readOr handles depth true true (endsBlockEntry rest) rest
          let (value, rest) ←
            if atValue rest then
              readOr handles depth true true (endsBlockEntry (rest.drop 1)) (rest.drop 1)
            else pure (empty, rest)
          let (entries, rest) ← readBlockEntries handles depth rest
          return ((key, value) :: entries, rest)
      | .blockEnd :: rest => return ([], rest)
      | _ => .error (.unexpectedToken "key")

/-- Reads the rest of a flow sequence. Items are separated by commas, and a comma may follow the
last one. An item with a key is a mapping of one entry. -/
def readFlowItems (handles : Handles) (depth : Nat) (first : Bool) (ts : List Token) :
    Except Error (List NamedNode × List Token) :=
  match depth with
  | 0 => .error .tooDeep
  | depth + 1 => do
      match ts with
      | .flowSequenceEnd :: rest => return ([], rest)
      | _ =>
          let ts ← match first, ts with
            | true, _ => pure ts
            | false, .flowEntry :: rest => pure rest
            | false, _ => .error (.unexpectedToken "',' or ']'")
          match ts with
          | .flowSequenceEnd :: rest => return ([], rest)
          | .key :: rest =>
              let (entry, rest) ← readFlowPair handles depth rest
              let (items, rest) ← readFlowItems handles depth false rest
              return (.mapping none none [entry] :: items, rest)
          | _ =>
              let (item, rest) ← read handles depth false false ts
              let (items, rest) ← readFlowItems handles depth false rest
              return (item :: items, rest)

/-- Reads the entry of a flow sequence behind its key mark. Where the key is missing, the token in
its place is dropped. -/
def readFlowPair (handles : Handles) (depth : Nat) (ts : List Token) :
    Except Error ((NamedNode × NamedNode) × List Token) :=
  match depth with
  | 0 => .error .tooDeep
  | depth + 1 => do
      let (key, rest) ←
        if atValue ts || endsFlowItem ts then pure (empty, ts.drop 1)
        else read handles depth false false ts
      let (value, rest) ←
        if atValue rest then
          readOr handles depth false false (endsFlowItem (rest.drop 1)) (rest.drop 1)
        else pure (empty, rest)
      return ((key, value), rest)

/-- Reads the rest of a flow mapping. An entry without a key mark is a key without a value. -/
def readFlowEntries (handles : Handles) (depth : Nat) (first : Bool) (ts : List Token) :
    Except Error (List (NamedNode × NamedNode) × List Token) :=
  match depth with
  | 0 => .error .tooDeep
  | depth + 1 => do
      match ts with
      | .flowMappingEnd :: rest => return ([], rest)
      | _ =>
          let ts ← match first, ts with
            | true, _ => pure ts
            | false, .flowEntry :: rest => pure rest
            | false, _ => .error (.unexpectedToken "',' or '\x7d'")
          match ts with
          | .flowMappingEnd :: rest => return ([], rest)
          | .key :: rest =>
              let (key, rest) ←
                readOr handles depth false false (atValue rest || endsFlowEntry rest) rest
              let (value, rest) ←
                if atValue rest then
                  readOr handles depth false false (endsFlowEntry (rest.drop 1)) (rest.drop 1)
                else pure (empty, rest)
              let (entries, rest) ← readFlowEntries handles depth false rest
              return ((key, value) :: entries, rest)
          | _ =>
              let (key, rest) ← read handles depth false false ts
              let (entries, rest) ← readFlowEntries handles depth false rest
              return ((key, empty) :: entries, rest)

end

/-! ## Documents -/

/-- The directives in front of a document: whether a version was given, and the handles. A version
must be 1.1 or 1.2, and neither a version nor a handle may be given twice. -/
def readDirectives (version : Bool) (handles : Handles) :
    List Token → Except Error (Bool × Handles × List Token)
  | .version major minor :: rest =>
      if version then .error .duplicateDirective
      else if major = 1 ∧ (minor = 1 ∨ minor = 2) then readDirectives true handles rest
      else .error .incompatibleVersion
  | .tagHandle handle expansion :: rest =>
      if (handles.lookup handle).isSome then .error .duplicateDirective
      else readDirectives version (handles ++ [(handle, expansion)]) rest
  | ts => .ok (version || !handles.isEmpty, handles, ts)

/-- Whether a document has no content. -/
def atDocumentEnd (ts : List Token) : Bool :=
  match ts with
  | [] | .version .. :: _ | .tagHandle .. :: _ | .documentStart :: _ | .documentEnd :: _ => true
  | _ => false

/-- The node of a text that holds at most one document; none if it holds none. -/
def ofTokens? (ts : List Token) : Except Error (Option NamedNode) := do
  if ts = [] then return none
  let (declared, handles, rest) ← readDirectives false [] ts
  -- Handles of the document take precedence over the known ones.
  let handles := handles ++ knownHandles
  let depth := 2 * ts.length + 4
  let (node, rest) ← match rest with
    | .documentStart :: rest => readOr handles depth true false (atDocumentEnd rest) rest
    | _ =>
        if declared then .error (.unexpectedToken "<document start>")
        else read handles depth true false rest
  match rest.dropWhile (· = .documentEnd) with
  | [] => return some node
  | _ => .error .moreDocuments

end Node

end Transclusion.Yaml
