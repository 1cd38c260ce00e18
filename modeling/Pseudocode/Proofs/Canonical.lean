import Pseudocode.Proofs.Image

/-!
# Canonical texts

A program that was parsed from any source can be written out and parsed again, and the result is the
same program but for its lines. The canonical text of a program has one statement to a line and
upper-case keywords, parentheses only where precedence calls for them, and every optional word.

The proof has two halves: what the parser makes can be written (`writable_of_parseSource`), and what
is written is read back (`parseSource_source`).

Result: `canonical_text_parses_back`.
-/

namespace Pseudocode

/-- **Canonical texts parse back**: for every source with program `p`, in every spelling of
literals, the canonical text of `p` is a program that differs from `p` in its lines only. -/
theorem canonical_text_parses_back (source : String) (p : Block) (h : parseSource source = .ok p)
    (s : Spelling) : ∃ q, parseSource (s.source p) = .ok q ∧ Block.unlined q = Block.unlined p := by
  have hwritable : Block.Writable p := writable_of_parseSource h
  exact parseSource_source s hwritable

/-- A program whose blocks are ended by what follows them, with optional words left out. -/
def crowded : String :=
  "case of x 'a': output not (p = q) and (p) \"it's\": if p then else if q then else endif\n" ++
    "for i <- p to q next otherwise: endcase"

/-- Its canonical text. -/
def crowdedCanonical : String :=
  "CASE OF x\n\"a\" :\nOUTPUT NOT p = q AND p\n\"it's\" :\nIF p THEN\nELSE IF q THEN\nELSE\n" ++
    "ENDIF\nFOR i <- p TO q STEP 1\nNEXT i\nOTHERWISE :\nENDCASE\n"

theorem crowded_parses_back : ∃ p q, parseSource crowded = .ok p ∧
    Spelling.exact.source p = crowdedCanonical ∧ parseSource crowdedCanonical = .ok q ∧
    Block.unlined q = Block.unlined p := by
  have htext :
      (parseSource crowded).toOption.map Spelling.exact.source = some crowdedCanonical := by
    decide +kernel
  obtain ⟨p, hp, hsource⟩ := exists_of_parseSource htext
  obtain ⟨q, hq, heq⟩ := canonical_text_parses_back crowded p hp Spelling.exact
  exact ⟨p, q, hp, hsource, hsource ▸ hq, heq⟩

end Pseudocode
