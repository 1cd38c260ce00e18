import Pseudocode.Text.AlphanumericTable
import Pseudocode.Text.DecimalTable
import Pseudocode.Text.PrintableTable

/-!
# Character classes

The classes of characters that the language and its messages distinguish: the characters of a name,
decimal digits of any script, white space, line breaks, and the characters that quoted text shows as
they are. Each class is decided directly on ASCII and by a table beyond it.
-/

namespace Pseudocode.Text

/-- Letters, digits and other numbers of any script. -/
def isAlphanumeric (c : Char) : Bool :=
  if c.toNat < 0x80 then c.isAlphanum else wideAlphanumeric.contains c

/-- The characters a name consists of: alphanumeric characters and the underscore. -/
def isWord (c : Char) : Bool :=
  c == '_' || isAlphanumeric c

/-- Decimal digits of any script. -/
def isDecimal (c : Char) : Bool :=
  if c.toNat < 0x80 then c.isDigit else wideDecimal.contains c

/-- The value of a decimal digit: digits come in runs of ten that start at zero. -/
def decimalValue (c : Char) : Nat :=
  if c.toNat < 0x80 then c.toNat - '0'.toNat
  else (c.toNat - wideDecimal.runStart c.toNat) % 10

/-- A name starts with a word character that is no decimal digit. -/
def isWordStart (c : Char) : Bool :=
  isWord c && !isDecimal c

/-- White space of any kind, the information separators U+001C to U+001F included. -/
def isBlank (c : Char) : Bool :=
  let n := c.toNat
  (0x09 ≤ n && n ≤ 0x0D) || (0x1C ≤ n && n ≤ 0x20) || n == 0x85 || n == 0xA0 || n == 0x1680 ||
    (0x2000 ≤ n && n ≤ 0x200A) || n == 0x2028 || n == 0x2029 || n == 0x202F || n == 0x205F ||
    n == 0x3000

/-- The characters that end a line of a text file. -/
def isLineBreak (c : Char) : Bool :=
  let n := c.toNat
  (0x0A ≤ n && n ≤ 0x0D) || (0x1C ≤ n && n ≤ 0x1E) || n == 0x85 || n == 0x2028 || n == 0x2029

/-- The characters that quoted text shows unescaped. -/
def isPrintable (c : Char) : Bool :=
  if c.toNat < 0x80 then 0x20 ≤ c.toNat && c.toNat < 0x7F else widePrintable.contains c

/-- The characters of a text without the white space at both ends. -/
def trimChars (cs : List Char) : List Char :=
  ((cs.dropWhile isBlank).reverse.dropWhile isBlank).reverse

/-- A text without the white space at both ends. -/
def trim (s : String) : String :=
  String.ofList (trimChars s.toList)

end Pseudocode.Text
