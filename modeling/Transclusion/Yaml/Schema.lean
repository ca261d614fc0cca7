import Transclusion.Value
import Transclusion.Yaml.Token

/-!
# What a YAML text denotes

A plain text denotes null, a boolean or a number if it is spelled like one, and itself otherwise.
A quoted text denotes itself. The tags of the core types ask for a spelling of their type; a tag
of the document's own cannot be read.

Integers range over those of 64 bits, signed or not. Texts that look like wider ones are refused
up to 128 bits, and beyond that read as floats. Infinities and NaN denote null.
-/

namespace Transclusion.Yaml

def isNull (text : String) : Bool :=
  ["null", "Null", "NULL", "~"].contains text

def boolean? (text : String) : Option Bool :=
  if ["true", "True", "TRUE"].contains text then some true
  else if ["false", "False", "FALSE"].contains text then some false
  else none

/-! ## Integers -/

/-- The value of a digit in any base up to sixteen. -/
def digitValue? (base : Nat) (c : Char) : Option Nat :=
  let value :=
    if c.isDigit then c.toNat - '0'.toNat
    else if 'a' ≤ c ∧ c ≤ 'f' then c.toNat - 'a'.toNat + 10
    else if 'A' ≤ c ∧ c ≤ 'F' then c.toNat - 'A'.toNat + 10
    else 16
  if value < base then some value else none

/-- The number that a non-empty run of digits denotes. -/
def numeral? (base : Nat) : List Char → Option Nat
  | [] => none
  | c :: cs => (c :: cs).foldlM (fun n c => (digitValue? base c).map (base * n + ·)) 0

/-- Whether a text is digits only, more than one and the first a zero. Such a text is no number,
with a sign or without. -/
def isZeroPadded (cs : List Char) : Bool :=
  let digits := (Binary64.splitSign cs).2
  1 < digits.length && digits.head? = some '0' && digits.all Char.isDigit

/-- The magnitude that an integer without its sign spells: digits behind `0x`, `0o` or `0b`, or
decimal digits. -/
def magnitude? (cs : List Char) : Option Nat :=
  match cs with
  | '0' :: 'x' :: digits => numeral? 16 digits
  | '0' :: 'o' :: digits => numeral? 8 digits
  | '0' :: 'b' :: digits => numeral? 2 digits
  | _ => if isZeroPadded cs then none else numeral? 10 cs

/-- How an integer's spelling reads. -/
inductive IntegerReading
  | within (n : Int)
  /-- Too wide for 64 bits, but not for 128. -/
  | wide
  deriving DecidableEq, Repr

/-- The integer that a text spells; none for other texts and for integers beyond 128 bits. -/
def integer? (cs : List Char) : Option IntegerReading :=
  let (negative, unsigned) := Binary64.splitSign cs
  match magnitude? unsigned with
  | none => none
  | some n =>
      if negative then
        if n ≤ Nat.pow 2 63 then some (.within (-n))
        else if n ≤ Nat.pow 2 127 then some .wide
        else none
      else if n < Nat.pow 2 64 then some (.within n)
      else if n < Nat.pow 2 128 then some .wide
      else none

/-! ## Floats -/

/-- Whether a text spells an infinity or NaN. -/
def isNotFinite (text : String) : Bool :=
  [".inf", ".Inf", ".INF", "+.inf", "+.Inf", "+.INF", "-.inf", "-.Inf", "-.INF",
    ".nan", ".NaN", ".NAN"].contains text

def float? (text : String) : Option Value :=
  if isNotFinite text then some .null
  else (Binary64.ofText? text.toList).map .float

/-! ## Texts -/

/-- What a plain text denotes. -/
def ofPlain (text : String) : Except Error Value :=
  if text = "" || isNull text then .ok .null
  else
    match boolean? text with
    | some b => .ok (.bool b)
    | none =>
        match integer? text.toList with
        | some (.within n) => .ok (.int n)
        | some .wide => .error (.integerTooLarge text)
        | none =>
            if isZeroPadded text.toList then .ok (.str text)
            else .ok ((float? text).getD (.str text))

/-- The tag of a core type. -/
def coreTag (name : String) : Octets :=
  ("tag:yaml.org,2002:" ++ name).toUTF8.toList

/-- Whether a tag is local: it starts with `!`. -/
def isLocalTag (tag : Octets) : Bool :=
  tag.head? = some 0x21

/-- Whether a tag is one of the document's own: it is local and has a name that is a text. -/
def isCustomTag (tag : Octets) : Bool :=
  isLocalTag tag && (String.fromUTF8? ⟨(tag.drop 1).toArray⟩).isSome

/-- What a text with a tag denotes. A local tag without a name says nothing. -/
def ofTagged (tag : Octets) (plain : Bool) (text : String) : Except Error Value :=
  let mismatch : Except Error Value := .error (.tagMismatch text)
  if isCustomTag tag then .error .customTag
  else if tag = coreTag "bool" then
    match boolean? text with
    | some b => .ok (.bool b)
    | none => mismatch
  else if tag = coreTag "int" then
    match integer? text.toList with
    | some (.within n) => .ok (.int n)
    | _ => mismatch
  else if tag = coreTag "float" then
    match float? text with
    | some x => .ok x
    | none => mismatch
  else if tag = coreTag "null" then
    if isNull text then .ok .null else mismatch
  else if isLocalTag tag && plain then ofPlain text
  else .ok (.str text)

/-- What a text denotes. -/
def ofScalar (tag : Option Octets) (plain : Bool) (text : String) : Except Error Value :=
  match tag with
  | some tag => ofTagged tag plain text
  | none => if plain then ofPlain text else .ok (.str text)

end Transclusion.Yaml
