import Transclusion.Directive
import Transclusion.Text.Position

/-!
# Directives by tokens

The directives of a text as a walk over its tokens finds them. The walk holds no text, only byte
offsets.

* `Walk.lexemes` — the tokens of a text with the bytes they cover;
* `Walk.Context.read` — what one token does to the walk, in the five contexts it can stand in;
* `Walk.Walker.run` — the walk over all tokens;
* `Walk.marks` — where the directives of a text and their parts lie.

## Why the walk ends

An attempt that fails goes back to the token behind the bracket that closed its label, so the tokens
that are still unread become more again. But between two returns the walk passes that place: the
greater of what is unread and what an attempt may return to never grows, and it shrinks whenever a
directive is opened or closed (`Walker.measure`).
-/

namespace Transclusion.Directive.Walk

/-! ## Tokens -/

/-- The kinds of tokens. -/
inductive Token
  /-- `:[` -/
  | opening
  | bracketOpen
  | bracketClose
  | parenOpen
  | parenClose
  | colon
  | newline
  /-- A run of spaces, tabs and carriage returns. -/
  | blanks
  /-- A run of all other characters. -/
  | text
  deriving DecidableEq, Repr

/-- A token with the bytes it covers. -/
structure Lexeme where
  token : Token
  start : Nat
  stop : Nat
  deriving DecidableEq, Repr

/-- The number of bytes of a text. -/
def bytes : List Char → Nat
  | [] => 0
  | c :: cs => c.utf8Size + bytes cs

/-- The tokens that are one character long. -/
def single? : Char → Option Token
  | '[' => some .bracketOpen
  | ']' => some .bracketClose
  | '(' => some .parenOpen
  | ')' => some .parenClose
  | ':' => some .colon
  | '\n' => some .newline
  | _ => none

/-- Characters that run together into a text token. -/
def isTextChar (c : Char) : Bool :=
  !isGapChar c && (single? c).isNone

/-- The first token of `c :: cs`: its kind, what it takes and what it leaves. -/
def next (c : Char) (cs : List Char) : Token × List Char × List Char :=
  match c, cs with
  | ':', '[' :: rest => (.opening, [':', '['], rest)
  | c, cs =>
      match single? c with
      | some token => (token, [c], cs)
      | none =>
          if isGapChar c then (.blanks, c :: cs.takeWhile isGapChar, cs.dropWhile isGapChar)
          else (.text, c :: cs.takeWhile isTextChar, cs.dropWhile isTextChar)

theorem next_append (c : Char) (cs : List Char) :
    (next c cs).2.1 ++ (next c cs).2.2 = c :: cs := by
  unfold next
  split
  · rfl
  · split
    · rfl
    · split <;> simp

theorem next_ne_nil (c : Char) (cs : List Char) : (next c cs).2.1 ≠ [] := by
  unfold next
  split
  · simp
  · split
    · simp
    · split <;> simp

/-- The tokens of a text that starts at `offset`. -/
def lexemes (offset : Nat) : List Char → List Lexeme
  | [] => []
  | c :: cs =>
      let stop := offset + bytes (next c cs).2.1
      ⟨(next c cs).1, offset, stop⟩ :: lexemes stop (next c cs).2.2
termination_by cs => cs.length
decreasing_by
  have happend := congrArg List.length (next_append c cs)
  have hne := List.length_pos_iff.mpr (next_ne_nil c cs)
  rw [List.length_append] at happend
  omega

/-! ## The walk -/

/-- The bytes from `start` to `stop`. -/
structure Span where
  start : Nat
  stop : Nat
  deriving DecidableEq, Repr

/-- The bytes of a directive with its colon at `p`. -/
def Span.of (d : Directive) (p : Position) : Span :=
  ⟨p.offset, (p.advance d.source.toList).offset⟩

/-- Where a directive and its parts lie. -/
structure Marks where
  span : Span
  label : Span
  target : Span
  /-- The secondary text with the blanks around it, if there is any. -/
  secondary : Option Span
  deriving DecidableEq, Repr

/-- Where the walk stands. A context behind a closed label knows the tokens to go back to, those
behind the bracket. -/
inductive Context
  /-- Outside of any directive. -/
  | outside
  /-- Behind `:[`, in the label. -/
  | label (start labelStart : Nat)
  /-- Behind `]`, where a parenthesis must open. -/
  | closed (resume : List Lexeme) (start : Nat) (label : Span)
  /-- Behind `](`, in the target. -/
  | target (resume : List Lexeme) (start : Nat) (label : Span) (targetStart : Nat)
  /-- Behind the first blanks after the target. -/
  | secondary (resume : List Lexeme) (start : Nat) (label target : Span) (secondaryStart : Nat)
  deriving DecidableEq, Repr

namespace Context

/-- The tokens to go back to when the directive turns out not to be one. -/
def resume? : Context → Option (List Lexeme)
  | outside | label .. => none
  | closed resume .. | target resume .. | secondary resume .. => some resume

@[simp] theorem resume?_outside : outside.resume? = none := rfl

end Context

/-- What one token does to a walk. -/
inductive Move
  /-- The token is read. -/
  | on (context : Context)
  /-- The token does not fit, and the walk goes back. -/
  | back (resume : List Lexeme)
  /-- The token is read and closes a directive. -/
  | found (marks : Marks)
  deriving DecidableEq, Repr

/-- A directive is closed. A secondary text without a character is none. -/
def Move.close (span label target : Span) (secondary : Option Span) : Move :=
  .found ⟨span, label, target, secondary.filter fun s => s.start < s.stop⟩

/-- What a token does in a context, where `unread` are the tokens behind it. -/
def Context.read (unread : List Lexeme) (lexeme : Lexeme) : Context → Move
  | .outside => .on (if lexeme.token = .opening then .label lexeme.start lexeme.stop else .outside)
  | .label start labelStart =>
      .on (if lexeme.token = .bracketClose then .closed unread start ⟨labelStart, lexeme.start⟩
        else .label start labelStart)
  | .closed resume start name =>
      if lexeme.token = .parenOpen then .on (.target resume start name lexeme.stop)
      else .back resume
  | .target resume start name targetStart =>
      let goal : Span := ⟨targetStart, lexeme.start⟩
      match lexeme.token with
      | .newline => .back resume
      | .blanks =>
          if lexeme.start = targetStart then .back resume
          else .on (.secondary resume start name goal lexeme.stop)
      | .parenClose =>
          if lexeme.start = targetStart then .back resume
          else .close ⟨start, lexeme.stop⟩ name goal none
      | _ => .on (.target resume start name targetStart)
  | .secondary resume start name goal secondaryStart =>
      match lexeme.token with
      | .newline => .back resume
      | .parenClose =>
          .close ⟨start, lexeme.stop⟩ name goal (some ⟨secondaryStart, lexeme.start⟩)
      | _ => .on (.secondary resume start name goal secondaryStart)

/-- A walk under way: the tokens that are still unread and the directives found so far. -/
structure Walker where
  context : Context
  unread : List Lexeme
  found : List Marks
  deriving DecidableEq, Repr

namespace Walker

/-- What the first unread token does to the walk; none when all are read. -/
def step (w : Walker) : Option Walker :=
  match w.unread with
  | [] => none
  | lexeme :: unread =>
      match w.context.read unread lexeme with
      | .on context => some ⟨context, unread, w.found⟩
      | .back resume => some ⟨.outside, resume, w.found⟩
      | .found marks => some ⟨.outside, unread, w.found ++ [marks]⟩

/-- What bounds the steps that are left: the tokens that may still be read or read again, and in an
attempt that may go back, the tokens up to the end. -/
def measure (w : Walker) : Nat × Nat :=
  match w.context.resume? with
  | none => (w.unread.length, 0)
  | some resume => (max resume.length w.unread.length, w.unread.length + 1)

end Walker

/-- The walk never goes back to another place than the context says. -/
theorem Context.resume?_of_read_back {context : Context} {unread resume : List Lexeme}
    {lexeme : Lexeme} (h : context.read unread lexeme = .back resume) :
    context.resume? = some resume := by
  unfold read Move.close at h
  grind [Context.resume?]

/-- Reading a token changes the place to go back to only where a label is closed. -/
theorem Context.resume?_of_read_on {context context' : Context} {unread : List Lexeme}
    {lexeme : Lexeme} (h : context.read unread lexeme = .on context') :
    context'.resume? = context.resume? ∨
      (context.resume? = none ∧ context'.resume? = some unread) := by
  unfold read Move.close at h
  grind [Context.resume?]

namespace Walker

theorem measure_step {w w' : Walker} (h : w.step = some w') :
    Prod.Lex (· < ·) (· < ·) w'.measure w.measure := by
  obtain ⟨context, unread, found⟩ := w
  cases unread with
  | nil => exact nomatch h
  | cons lexeme unread =>
    simp only [step] at h
    rw [Prod.lex_def]
    cases hread : context.read unread lexeme with
    | on context' =>
      obtain rfl : Walker.mk context' unread found = w' := by simpa [hread] using h
      rcases Context.resume?_of_read_on hread with hsame | ⟨hnone, hsome⟩
      · cases hresume : context.resume? with
        | none => simp [measure, hsame, hresume]
        | some resume =>
          simp only [measure, hsame, hresume, List.length_cons]
          omega
      · simp [measure, hnone, hsome]
    | back resume =>
      obtain rfl : Walker.mk .outside resume found = w' := by simpa [hread] using h
      simp only [measure, Context.resume?_of_read_back hread, List.length_cons,
        Context.resume?_outside]
      omega
    | found marks =>
      obtain rfl : Walker.mk .outside unread (found ++ [marks]) = w' := by simpa [hread] using h
      cases hresume : context.resume? with
      | none => simp [measure, hresume]
      | some resume =>
        simp only [measure, hresume, List.length_cons, Context.resume?_outside]
        omega

/-- The directives of a walk that goes on until all tokens are read. -/
def run (w : Walker) : List Marks :=
  match _hstep : w.step with
  | none => w.found
  | some w' => w'.run
termination_by w.measure
decreasing_by exact measure_step _hstep

/-- The walk at the start of a text. -/
def ofText (text : String) : Walker :=
  ⟨.outside, lexemes 0 text.toList, []⟩

end Walker

/-- Where the directives of a text lie. A text without an opening is not walked at all. -/
def marks (text : String) : List Marks :=
  if (findOpen [] text.toList).isSome then (Walker.ofText text).run else []

end Transclusion.Directive.Walk
