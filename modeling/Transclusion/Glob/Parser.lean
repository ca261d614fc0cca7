import Transclusion.Glob.Basic

/-!
# Reading globs

`Glob.parse` reads the text of a glob from left to right. Groups may be nested; the reader keeps the
branch it is in, and for each open group the branches before and the tokens in front.
-/

namespace Transclusion.Glob

/-- Why a glob cannot be read. -/
inductive Error
  | unclosedClass
  | invalidRange (low high : Char)
  | unopenedGroup
  | unclosedGroup
  | danglingEscape
  deriving DecidableEq, Repr

/-- The words that report an error. -/
def Error.reason : Error → String
  | .unclosedClass => "unclosed character class; missing ']'"
  | .invalidRange low high => "invalid range; '" ++ low.toString ++ "' > '" ++ high.toString ++ "'"
  | .unopenedGroup =>
      "unopened alternate group; missing '\x7b' (maybe escape '\x7d' with '[\x7d]'?)"
  | .unclosedGroup =>
      "unclosed alternate group; missing '\x7d' (maybe escape '\x7b' with '[\x7b]'?)"
  | .danglingEscape => "dangling '\\'"

/-- The sentence that reports an error in the glob `text`. -/
def Error.message (text : String) (error : Error) : String :=
  "error parsing glob '" ++ text ++ "': " ++ error.reason

/-! ## Classes -/

/-- What has been read of a class. -/
structure ClassState where
  /-- The ranges so far, latest first. -/
  ranges : List (Char × Char)
  /-- Whether a `-` waits for the end of the latest range. -/
  inRange : Bool

/-- Adds a character to a class: as the end of a range, if one is open, else by itself. -/
def ClassState.add (s : ClassState) (c : Char) : Except Error ClassState :=
  match s.inRange, s.ranges with
  | true, (low, _) :: ranges =>
      if c < low then .error (.invalidRange low c) else .ok ⟨(low, c) :: ranges, false⟩
  | _, ranges => .ok ⟨(c, c) :: ranges, false⟩

/-- The ranges of a class that is over; a `-` at its end stands for itself. -/
def ClassState.finish (s : ClassState) : List (Char × Char) :=
  (if s.inRange then ('-', '-') :: s.ranges else s.ranges).reverse

/-- Reads a class up to its `]`. At the start, `]` and `-` stand for themselves. None if it is not
closed. -/
def readRanges (first : Bool) (s : ClassState) :
    List Char → Except Error (Option (List (Char × Char) × List Char))
  | [] => .ok none
  | c :: rest =>
      if c = ']' && !first then .ok (some (s.finish, rest))
      else if c = '-' && !first && !s.inRange then readRanges false { s with inRange := true } rest
      else do readRanges false (← s.add c) rest

def readClass (cs : List Char) : Except Error (Option (Token × List Char)) := do
  let (negated, rest) := match cs with
    | '!' :: rest | '^' :: rest => (true, rest)
    | _ => (false, cs)
  match ← readRanges true ⟨[], false⟩ rest with
  | some (ranges, rest) => return some (.oneOf negated ranges, rest)
  | none => return none

/-! ## Globs -/

/-- A group that is open. -/
structure Group where
  /-- The tokens in front of the group, latest first. -/
  before : List Token
  /-- Its branches so far, latest first. -/
  branches : List (List Token)

/-- What has been read of a glob. -/
structure Reading where
  /-- The tokens of the current branch, latest first. -/
  branch : List Token
  /-- The open groups, innermost first. -/
  groups : List Group
  /-- The character read last. -/
  previous : Option Char
  /-- A `[` without its `]` was found, so that no class follows. -/
  classless : Bool

namespace Reading

/-- Adds a token. -/
def push (r : Reading) (token : Token) : Reading :=
  { r with branch := token :: r.branch }

/-- Replaces the latest token, which was the slash before two stars. Directories next to
directories are not told apart. -/
def joinDirectories (r : Reading) (token : Token) : Reading :=
  match r.branch with
  | .directories :: _ | .everythingBelow :: _ => r
  | _ :: branch => { r with branch := token :: branch }
  | [] => r

/-- Whether the character read last lets two stars stand for directories: a slash does, and inside
a group also a comma or an opening brace. -/
def afterSlash (r : Reading) : Bool :=
  r.previous = some '/' || (!r.groups.isEmpty && (r.previous = some ',' || r.previous = some '\x7b'))

/-- Reads what follows two stars. -/
def readTwoStars (r : Reading) (rest : List Char) : Reading × List Char :=
  let plain := ((r.push .star).push .star, rest)
  let plain := ({ plain.1 with previous := some '*' }, plain.2)
  let behindSlash := { r with previous := some '/' }
  let behindStar := { r with previous := some '*' }
  if r.branch.isEmpty then
    match rest with
    | [] => (behindStar.push .directories, [])
    | '/' :: rest => (behindSlash.push .directories, rest)
    | _ => plain
  else if !r.afterSlash then plain
  else
    match rest with
    | [] => (behindStar.joinDirectories .everythingBelow, [])
    | '/' :: rest => (behindSlash.joinDirectories .directoriesBetween, rest)
    | c :: _ =>
        if !r.groups.isEmpty && (c = ',' || c = '\x7d') then
          (behindStar.joinDirectories .everythingBelow, rest)
        else plain

/-- Ends the innermost group. -/
def closeGroup (r : Reading) : Except Error Reading :=
  match r.groups with
  | [] => .error .unopenedGroup
  | group :: groups =>
      let branches := (r.branch.reverse :: group.branches).reverse
      .ok { r with branch := .alternatives branches :: group.before, groups }

/-- Starts the next branch of the innermost group; outside groups a comma stands for itself. -/
def nextBranch (r : Reading) : Reading :=
  match r.groups with
  | [] => r.push (.literal ',')
  | group :: groups =>
      { r with
        branch := []
        groups := { group with branches := r.branch.reverse :: group.branches } :: groups }

/-- Reads one part of a glob, which starts with `c`. -/
def readPart (options : Options) (r : Reading) (c : Char) (rest : List Char) :
    Except Error (Reading × List Char) := do
  let behind := { r with previous := some c }
  match c with
  | '?' => return (behind.push .any, rest)
  | '*' =>
      match rest with
      | '*' :: rest => return r.readTwoStars rest
      | _ => return (behind.push .star, rest)
  | '\x7b' =>
      return ({ behind with branch := [], groups := ⟨r.branch, []⟩ :: r.groups }, rest)
  | '\x7d' => return (← behind.closeGroup, rest)
  | ',' => return (behind.nextBranch, rest)
  | '\\' =>
      match rest with
      | [] => throw .danglingEscape
      | d :: rest => return ({ r with previous := some d }.push (.literal d), rest)
  | '[' =>
      if r.classless then return (behind.push (.literal '['), rest)
      else
        match ← readClass rest with
        | some (token, rest) => return ({ r with previous := some ']' }.push token, rest)
        | none =>
            if options.lenientClass then
              return ({ behind with classless := true }.push (.literal '['), rest)
            else throw .unclosedClass
  | c => return (behind.push (.literal c), rest)

/-- Reads the parts of a glob. Every part takes one of `steps`. -/
def readAll (options : Options) : Nat → Reading → List Char → Except Error Reading
  | steps + 1, r, c :: rest => do
      let (r, rest) ← readPart options r c rest
      readAll options steps r rest
  | _, r, _ => .ok r

end Reading

/-- Reads a glob. -/
def parse (options : Options) (text : String) : Except Error Glob := do
  let cs := text.toList
  let r ← Reading.readAll options cs.length ⟨[], [], none, false⟩ cs
  if r.groups.isEmpty then return ⟨options, r.branch.reverse⟩ else throw .unclosedGroup

end Transclusion.Glob
