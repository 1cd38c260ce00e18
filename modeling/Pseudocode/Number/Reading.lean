import Pseudocode.Number.Binary64
import Pseudocode.Text.Class

/-!
# Numbers read from text

The grammars of whole numbers and of decimals in text, and their values. A whole number is an
optional sign and digits. A decimal is an optional sign, digits with an optional point among or
around them, and an optional exponent. White space around the number does not count; any other text
is no number.

The strict grammars allow ASCII digits only. The liberal ones, `liberalWhole?` and `liberalReal?`,
also take digits of other scripts and single underscores between digits; among the reals they know
`inf` and `nan`.
-/

namespace Pseudocode.Number

/-- The value of a list of decimal digits. -/
def digitsValue (ds : List Char) : Nat :=
  ds.foldl (fun n c => 10 * n + (c.toNat - '0'.toNat)) 0

/-- The most digits a whole number in text may have. -/
def digitLimit : Nat := 4300

/-- What a text says about a whole number. -/
inductive WholeNumber where
  /-- The text is no whole number. -/
  | none
  /-- The text is a whole number with more digits than can be read. -/
  | tooLong
  | value (n : Int)
  deriving DecidableEq, Repr

/-- An optional sign in front, `true` for a minus, and what follows it. -/
def splitSign : List Char → Bool × List Char
  | '-' :: rest => (true, rest)
  | '+' :: rest => (false, rest)
  | cs => (false, cs)

/-- A non-empty list of digits as a whole number. -/
def wholeOfDigits (negative : Bool) (ds : List Char) : WholeNumber :=
  if digitLimit < ds.length then .tooLong
  else .value (if negative then -(digitsValue ds : Int) else digitsValue ds)

/-- A text as a whole number. -/
def readWhole (text : String) : WholeNumber :=
  let (negative, ds) := splitSign (Text.trimChars text.toList)
  if !ds.isEmpty && ds.all Char.isDigit then wholeOfDigits negative ds else .none

/-- The double closest to `digits * 10 ^ exponent`. Far outside the range of doubles the power is
not computed. -/
def ofDecimal (digits : List Char) (exponent : Int) : Float :=
  let significant := digits.dropWhile (· == '0')
  let magnitude := significant.length + exponent
  if significant.isEmpty || magnitude < -330 then 0
  else if 310 < magnitude then infinity
  else
    let n := digitsValue significant
    if 0 ≤ exponent then nearest (n * Nat.pow 10 exponent.toNat) 1
    else nearest n (Nat.pow 10 (-exponent).toNat)

/-- The exponent at the end of a decimal, zero if there is nothing; `none` if the text is not
one. -/
def readExponent : List Char → Option Int
  | [] => some 0
  | c :: rest =>
    if c == 'e' || c == 'E' then
      let (negative, ds) := splitSign rest
      if !ds.isEmpty && ds.all Char.isDigit then
        let n : Int := digitsValue ds
        some (if negative then -n else n)
      else none
    else none

/-- An unsigned decimal as a double. -/
def readUnsigned (cs : List Char) : Option Float :=
  let whole := cs.takeWhile Char.isDigit
  let rest := cs.dropWhile Char.isDigit
  let (fraction, rest) := match rest with
    | '.' :: rest => (rest.takeWhile Char.isDigit, rest.dropWhile Char.isDigit)
    | rest => ([], rest)
  if whole.isEmpty && fraction.isEmpty then none
  else (readExponent rest).map fun e => ofDecimal (whole ++ fraction) (e - fraction.length)

/-- A text as a decimal. -/
def readDecimal? (text : String) : Option Float :=
  let (negative, cs) := splitSign (Text.trimChars text.toList)
  (readUnsigned cs).map (withSign negative)

/-! ## Writing -/

/-- The least natural that has more digits than may be written. -/
def writeLimit : Nat := Nat.pow 10 digitLimit

/-- Whether a whole number has few enough digits to be written. -/
def isWritable (n : Int) : Bool :=
  n.natAbs < writeLimit

/-- A whole number in decimal, unless it has too many digits. -/
def wholeText? (n : Int) : Option String :=
  if isWritable n then some (toString n) else none

/-! ## Liberal grammars -/

/-- White space that may surround a number: all but the information separators. -/
def isMargin (c : Char) : Bool :=
  Text.isBlank c && !(0x1C ≤ c.toNat && c.toNat ≤ 0x1F)

/-- The characters of a text between its margins. -/
def withinMargins (text : String) : List Char :=
  ((text.toList.dropWhile isMargin).reverse.dropWhile isMargin).reverse

/-- A digit of any script as the ASCII digit of the same value; other characters as they are. -/
def plainDigit (c : Char) : Char :=
  if Text.isDecimal c then Char.ofNat ('0'.toNat + Text.decimalValue c) else c

/-- Drops single underscores between digits, where `previous` is the character before; `none` if an
underscore stands anywhere else. -/
def ungroup? (previous : Char) : List Char → Option (List Char)
  | [] => some []
  | '_' :: d :: rest =>
    if previous.isDigit && d.isDigit then (ungroup? d rest).map (d :: ·) else none
  | '_' :: [] => none
  | c :: rest => (ungroup? c rest).map (c :: ·)

/-- The characters of a liberally written number with plain digits and without underscores. -/
def plainNumber? (text : String) : Option (List Char) :=
  ungroup? ' ' ((withinMargins text).map plainDigit)

/-- A text as a liberally written whole number; `none` also if it has too many digits. -/
def liberalWhole? (text : String) : Option Int := do
  let (negative, ds) := splitSign (← plainNumber? text)
  if ds.isEmpty || !ds.all Char.isDigit then none
  else
    match wholeOfDigits negative ds with
    | .value n => some n
    | _ => none

/-- A number that is written as a word, in any letter case. -/
def namedReal? (cs : List Char) : Option Float :=
  let word := String.ofList (cs.map Char.toLower)
  if word == "inf" || word == "infinity" then some infinity
  else if word == "nan" then some nan
  else none

/-- A text as a liberally written real. -/
def liberalReal? (text : String) : Option Float := do
  let (negative, cs) := splitSign (← plainNumber? text)
  (namedReal? cs <|> readUnsigned cs).map (withSign negative)

end Pseudocode.Number
