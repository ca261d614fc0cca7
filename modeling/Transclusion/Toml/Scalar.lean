import Transclusion.Text.CodePoint
import Transclusion.Text.Fields
import Transclusion.Toml.Item

/-!
# Bare scalars in TOML

What words without quotes denote: booleans, numbers, and dates and times.

A number is looked at twice. Its *outline* tells that the word is meant as a number, and a word
without one is an error at once (`isNumber`). What the outline lets through may still not be a
number that a value stands for, and then the item is unreadable (`number`).
-/

namespace Transclusion.Toml

/-! ## The outline of numbers -/

/-- Whether underscores stand between digits only. Next to an underscore a run may show another
character only if it is the sign of the number. -/
def underscoresFit (isDigit : Char → Bool) (cs : List Char) : Bool :=
  match Text.fields '_' cs with
  | [_] => true
  | runs =>
      (runs.drop 1).all (fun run => run.head?.any isDigit) &&
        runs.dropLast.all fun run => run ≠ [] && (run.length = 1 || run.getLast?.any isDigit)

/-- A decimal or hexadecimal digit. -/
def isHexDigit (c : Char) : Bool :=
  (Text.hexValue? c).isSome

/-- A digit, or an underscore. -/
def isRunChar (c : Char) : Bool :=
  c.isDigit || c = '_'

/-- Whether a text starts with a zero that is not its only digit. -/
def isZeroPadded (cs : List Char) : Bool :=
  cs.head? = some '0' && 1 < cs.countP Char.isDigit

/-- Whether a text is nothing, or the exponent of a float: a mark, a sign perhaps, and digits. -/
def isExponent : List Char → Bool
  | [] => true
  | c :: cs =>
      let digits := (Binary64.splitSign cs).2
      (c = 'e' || c = 'E') && digits.any Char.isDigit && digits.all isRunChar

/-- Whether a text is a fraction and an exponent, either of which may be missing. -/
def isFloatTail : List Char → Bool
  | '.' :: cs =>
      (cs.takeWhile isRunChar).any Char.isDigit && isExponent (cs.dropWhile isRunChar)
  | cs => isExponent cs

/-- Whether a text without its sign has the outline of a float. -/
def isFloat (cs : List Char) : Bool :=
  let whole := cs.takeWhile isRunChar
  whole.any Char.isDigit && !isZeroPadded whole && isFloatTail (cs.dropWhile isRunChar)

/-- Whether a word consists of digits of a base. -/
def isBased (isDigit : Char → Bool) (cs : List Char) : Bool :=
  (cs.all fun c => isDigit c || c = '_') && underscoresFit isHexDigit cs

/-- Whether a word has the outline of a number. Behind an underscore, a whole number may go on with
anything that has no point and no `e`. -/
def isNumber (cs : List Char) : Bool :=
  match cs with
  | '0' :: 'x' :: digits => isBased isHexDigit digits
  | '0' :: 'o' :: digits => isBased (fun c => '0' ≤ c && c ≤ '7') digits
  | '0' :: 'b' :: digits => isBased (fun c => c = '0' || c = '1') digits
  | _ =>
      let body := (Binary64.splitSign cs).2
      let tail := body.dropWhile Char.isDigit
      if body = "inf".toList || body = "nan".toList then true
      else if tail = [] then body ≠ [] && !isZeroPadded body
      else if tail.any fun c => c = '.' || c = 'e' || c = 'E' then
        isFloat body && underscoresFit Char.isDigit cs
      else tail.head? = some '_' && body.head? ≠ some '0' && underscoresFit isHexDigit cs

/-! ## Numbers -/

/-- The number that digits of a base denote. There is at least one. -/
def based? (base : Nat) (cs : List Char) : Option Nat :=
  match cs with
  | [] => none
  | cs => cs.foldlM (fun n c => (Text.hexValue? c).bind fun d =>
      if d < base then some (base * n + d) else none) 0

/-- The integer that a word without underscores denotes. It has at most 128 bits. -/
def integer? (cs : List Char) : Option Int :=
  let n? : Option Int :=
    match cs with
    | '0' :: 'x' :: digits => (based? 16 digits).map Int.ofNat
    | '0' :: 'o' :: digits => (based? 8 digits).map Int.ofNat
    | '0' :: 'b' :: digits => (based? 2 digits).map Int.ofNat
    | _ =>
        let (negative, digits) := Binary64.splitSign cs
        (based? 10 digits).map fun n => if negative then -(n : Int) else n
  n?.filter fun n => -Int.pow 2 127 ≤ n && n < Int.pow 2 128

/-- The float that a word without underscores denotes. -/
def float? (cs : List Char) : Option Binary64 :=
  let body := (Binary64.splitSign cs).2
  if body = "inf".toList || body = "nan".toList then some (Binary64.zero false)
  else Binary64.ofText? cs

/-- What a word with the outline of a number denotes. -/
def number (cs : List Char) : Item :=
  let digits := cs.filter (· ≠ '_')
  match ((integer? digits).map Value.int) <|> ((float? digits).map Value.float) with
  | some value => .scalar value
  | none => .unreadable (String.ofList cs)

/-! ## Dates and times -/

/-- The number that two digits at the start of a text denote, and the rest. -/
def twoDigits? : List Char → Option (Nat × List Char)
  | a :: b :: rest => (based? 10 [a, b]).map fun n => (n, rest)
  | _ => none

/-- The text behind a character. -/
def behind? (c : Char) : List Char → Option (List Char)
  | d :: rest => if d = c then some rest else none
  | [] => none

def daysIn (year month : Nat) : Nat :=
  if month = 2 then
    if year % 4 = 0 && (year % 100 ≠ 0 || year % 400 = 0) then 29 else 28
  else if month = 4 || month = 6 || month = 9 || month = 11 then 30
  else 31

/-- The text behind a date. -/
def behindDate? (cs : List Char) : Option (List Char) := do
  let (century, cs) ← twoDigits? cs
  let (year, cs) ← twoDigits? cs
  let (month, cs) ← twoDigits? (← behind? '-' cs)
  let (day, cs) ← twoDigits? (← behind? '-' cs)
  let fits := 1 ≤ month && month ≤ 12 && 1 ≤ day && day ≤ daysIn (100 * century + year) month
  if fits then some cs else none

/-- The text behind an hour and a minute. -/
def behindMinute? (cs : List Char) : Option (List Char) := do
  let (hour, cs) ← twoDigits? cs
  let (minute, cs) ← twoDigits? (← behind? ':' cs)
  if hour ≤ 23 && minute ≤ 59 then some cs else none

/-- The text behind the seconds of a time, if it has seconds. -/
def behindSecond? : List Char → Option (List Char)
  | ':' :: cs => do
      let (second, cs) ← twoDigits? cs
      if 60 < second then none
      else
        match cs with
        | '.' :: cs =>
            if (cs.takeWhile Char.isDigit).isEmpty then none else some (cs.dropWhile Char.isDigit)
        | cs => some cs
  | cs => some cs

/-- The text behind a time. -/
def behindTime? (cs : List Char) : Option (List Char) := do
  behindSecond? (← behindMinute? cs)

/-- Whether a text is nothing or the distance from the standard time. -/
def isOffset : List Char → Bool
  | [] | ['Z'] | ['z'] => true
  | c :: cs => (c = '+' || c = '-') && behindMinute? cs = some []

/-- Whether a word is a date. -/
def isDate (cs : List Char) : Bool :=
  behindDate? cs = some []

/-- Whether a word is a date, a time, or both. -/
def isDateTime (cs : List Char) : Bool :=
  behindTime? cs = some [] ||
    match behindDate? cs with
    | none => false
    | some [] => true
    | some (c :: cs) => (c = 'T' || c = 't' || c = ' ') && (behindTime? cs).any isOffset

/-! ## Words -/

/-- What a word denotes. -/
def scalar? (cs : List Char) : Option Item :=
  if cs = ['t', 'r', 'u', 'e'] then some (.scalar (.bool true))
  else if cs = ['f', 'a', 'l', 's', 'e'] then some (.scalar (.bool false))
  else if isDateTime cs then some (.scalar (.map [("date-time", .str (String.ofList cs))]))
  else if isNumber cs then some (number cs)
  else none

end Transclusion.Toml
