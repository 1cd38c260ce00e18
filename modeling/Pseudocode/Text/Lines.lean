import Pseudocode.Text.Class

/-!
# Lines of a text

A text file is a list of lines. `lines` cuts a text at every line break; a carriage return followed
by a line feed is one break, and a break at the very end starts no further line. `unlines` joins
lines with line feeds.
-/

namespace Pseudocode.Text

/-- Cuts at line breaks, where `current` holds the characters of the line so far, last first. -/
def cutLines (current : List Char) : List Char → List (List Char)
  | [] => if current.isEmpty then [] else [current.reverse]
  | '\r' :: '\n' :: rest => current.reverse :: cutLines [] rest
  | c :: rest =>
    if isLineBreak c then current.reverse :: cutLines [] rest
    else cutLines (c :: current) rest

/-- The lines of a text. -/
def lines (s : String) : List String :=
  (cutLines [] s.toList).map String.ofList

/-- Lines joined by line feeds. -/
def unlines (ls : List String) : String :=
  String.intercalate "\n" ls

/-- The characters of a text without the line feeds at its end. -/
def dropLastFeeds (cs : List Char) : List Char :=
  (cs.reverse.dropWhile (· == '\n')).reverse

/-- Cuts at every occurrence of `separator`; the result has one more piece than there are
separators. -/
def cutAt (separator : Char) : List Char → List (List Char)
  | [] => [[]]
  | c :: rest =>
    if c == separator then [] :: cutAt separator rest
    else
      match cutAt separator rest with
      | [] => [[c]]
      | piece :: pieces => (c :: piece) :: pieces

/-- The pieces of a text between line feeds. -/
def rows (s : String) : List String :=
  (cutAt '\n' s.toList).map String.ofList

/-- Every carriage return, alone or before a line feed, becomes a line feed. -/
def unifyBreaks : List Char → List Char
  | [] => []
  | '\r' :: '\n' :: rest => '\n' :: unifyBreaks rest
  | '\r' :: rest => '\n' :: unifyBreaks rest
  | c :: rest => c :: unifyBreaks rest

end Pseudocode.Text
