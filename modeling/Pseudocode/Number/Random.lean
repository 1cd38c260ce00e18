/-!
# Random numbers

A source of random numbers is a sequence of doubles and a place in it. Nothing is assumed of the
sequence: what is proved of programs holds whatever is drawn. The command line draws from a small
generator of uniformly distributed doubles from zero up to, but not including, one.
-/

namespace Pseudocode.Number

/-- A sequence of numbers to draw. -/
structure Generator where
  draws : Nat → Float := fun _ => 0
  /-- How many have been drawn. -/
  taken : Nat := 0

namespace Generator

/-- The next number and the sequence after it. -/
def next (g : Generator) : Float × Generator :=
  (g.draws g.taken, { g with taken := g.taken + 1 })

/-- Spreads the bits of a word over the whole word. -/
def mix (z : UInt64) : UInt64 :=
  let z := (z ^^^ (z >>> 30)) * 0xBF58476D1CE4E5B9
  let z := (z ^^^ (z >>> 27)) * 0x94D049BB133111EB
  z ^^^ (z >>> 31)

/-- Multiples of `2 ^ -53`, the same ones for the same seed. -/
def splitMix (seed : UInt64) : Generator where
  draws n :=
    (mix (seed + (n + 1).toUInt64 * 0x9E3779B97F4A7C15) >>> 11).toFloat / 9007199254740992.0

end Generator

end Pseudocode.Number
