/-!
# Expressions over bytes

The little regular expressions that globs stand for, and whether one matches a whole text.

A text is walked through once for each part of an expression. The walk carries one *mark* for each
place of the text, before every byte and at the end, that tells whether the parts so far can end
there (`Expression.step`); so the time is the product of both sizes, whatever the expression.
-/

namespace Transclusion.Glob

/-- A set of bytes: those in one of the ranges, or those in none of them. -/
structure ByteClass where
  negated : Bool
  ranges : List (UInt8 × UInt8)
  deriving DecidableEq, Repr

namespace ByteClass

def contains (c : ByteClass) (b : UInt8) : Bool :=
  c.negated != c.ranges.any fun (low, high) => low ≤ b && b ≤ high

/-- All bytes. -/
def all : ByteClass := ⟨true, []⟩

/-- One byte. -/
def single (b : UInt8) : ByteClass := ⟨false, [(b, b)]⟩

/-- The byte between the parts of a path. -/
def slash : ByteClass := single 0x2F

/-- All bytes but the slash. -/
def notSlash : ByteClass := ⟨true, [(0x2F, 0x2F)]⟩

end ByteClass

/-- A regular expression over bytes. -/
inductive Expression
  /-- The empty text. -/
  | empty
  /-- One byte of a class. -/
  | one (c : ByteClass)
  /-- Any number of bytes of a class. -/
  | many (c : ByteClass)
  /-- A text of the first behind which stands one of the second. -/
  | seq (a b : Expression)
  /-- A text of either. -/
  | either (a b : Expression)
  deriving Repr

namespace Expression

/-- The texts that an expression matches. -/
inductive Matches : Expression → List UInt8 → Prop
  | empty : Matches .empty []
  | one {c : ByteClass} {b : UInt8} : c.contains b = true → Matches (.one c) [b]
  | many {c : ByteClass} {bs : List UInt8} :
      (∀ b ∈ bs, c.contains b = true) → Matches (.many c) bs
  | seq {a b : Expression} {xs ys : List UInt8} :
      Matches a xs → Matches b ys → Matches (.seq a b) (xs ++ ys)
  | left {a b : Expression} {xs : List UInt8} : Matches a xs → Matches (.either a b) xs
  | right {a b : Expression} {xs : List UInt8} : Matches b xs → Matches (.either a b) xs

/-- The marks behind one byte of the class: each moves on by one place. -/
def stepOne (c : ByteClass) (bs : List UInt8) (marks : List Bool) : List Bool :=
  false :: List.zipWith (fun mark b => mark && c.contains b) marks bs

/-- The marks behind any number of bytes of the class, where `carried` tells whether the place
before can be reached. -/
def stepMany (c : ByteClass) (carried : Bool) : List UInt8 → List Bool → List Bool
  | b :: bs, mark :: marks =>
      let reached := mark || carried
      reached :: stepMany c (reached && c.contains b) bs marks
  | [], mark :: _ => [mark || carried]
  | _, [] => []

/-- The marks behind an expression that starts at the given ones. -/
def step (bs : List UInt8) : Expression → List Bool → List Bool
  | .empty, marks => marks
  | .one c, marks => stepOne c bs marks
  | .many c, marks => stepMany c false bs marks
  | .seq a b, marks => step bs b (step bs a marks)
  | .either a b, marks => List.zipWith (· || ·) (step bs a marks) (step bs b marks)

/-- Whether an expression matches a whole text. -/
def isMatch (e : Expression) (bs : List UInt8) : Bool :=
  (step bs e (true :: bs.map fun _ => false)).getLast? = some true

/-- Expressions one behind the other. -/
def sequence : List Expression → Expression
  | [] => .empty
  | e :: es => .seq e (sequence es)

/-- Any of some expressions, at least one. -/
def choice (e : Expression) : List Expression → Expression
  | [] => e
  | next :: es => .either e (choice next es)

end Expression

end Transclusion.Glob
