import Pseudocode.Text.CasedTable
import Pseudocode.Text.CaseTable

/-!
# Upper and lower case

Case mapping of whole texts. A character may map to several (`ß` to `SS`), and a capital sigma maps
to a final sigma when it ends a word: a character with case stands before it and none after it,
where characters that case mapping ignores are skipped on both sides.
-/

namespace Pseudocode.Text

namespace CaseRun

/-- The image of code point `n` under a run, if the run covers it. -/
def image? (r : CaseRun) (n : Nat) : Option Char :=
  if r.first ≤ n && n ≤ r.last && (n - r.first) % r.stride == 0 then
    some (Char.ofNat ((n : Int) + r.delta).toNat)
  else none

end CaseRun

/-- The characters that `c` maps to by the given expansions and runs, `c` itself if none covers
it. -/
def mapCase (expansions : List (Nat × List Nat)) (runs : List CaseRun) (c : Char) : List Char :=
  match expansions.lookup c.toNat with
  | some codes => codes.map Char.ofNat
  | none => [(runs.findSome? (·.image? c.toNat)).getD c]

/-- The upper-case form of a character. -/
def upperChar (c : Char) : List Char :=
  if c.toNat < 0x80 then [c.toUpper] else mapCase upperExpansions upperRuns c

/-- The lower-case form of a character that stands alone. -/
def lowerChar (c : Char) : List Char :=
  if c.toNat < 0x80 then [c.toLower] else mapCase lowerExpansions lowerRuns c

/-- The upper-case form of a text. -/
def upper (s : String) : String :=
  String.ofList (s.toList.flatMap upperChar)

/-- Whether the nearest character that case mapping does not skip has case. -/
def meetsCased (neighbours : List Char) : Bool :=
  match neighbours.dropWhile caseIgnorable.contains with
  | [] => false
  | c :: _ => cased.contains c

/-- The lower-case form of `rest`, where `before` holds the characters in front of it, nearest
first. -/
def lowerFrom (before : List Char) : (rest : List Char) → List Char
  | [] => []
  | c :: rest =>
    let image :=
      if c == 'Σ' then
        [if meetsCased before && !meetsCased rest then 'ς' else 'σ']
      else lowerChar c
    image ++ lowerFrom (c :: before) rest

/-- The lower-case form of a text. -/
def lower (s : String) : String :=
  String.ofList (lowerFrom [] s.toList)

end Pseudocode.Text
