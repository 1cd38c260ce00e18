/-!
# Case mappings outside ASCII

One-to-one case mappings are kept as runs: every `stride`-th code point from `first` to `last` is
shifted by `delta`. Most small letters and capitals map to each other (`casePairs`), so the runs of
one direction give those of the other. Upper-casing also has one-to-many mappings, kept as a list;
lower-casing has one, the dotted capital I. The data follows Unicode 14.
-/

namespace Pseudocode.Text

/-- Every `stride`-th code point from `first` to `last` maps to the code point `delta` further
on. -/
structure CaseRun where
  first : Nat
  last : Nat
  stride : Nat
  delta : Int

namespace CaseRun

/-- The run of a single code point. -/
def one (code : Nat) (delta : Int) : CaseRun :=
  ⟨code, code, 1, delta⟩

/-- The run that leads back. -/
def inverse (r : CaseRun) : CaseRun :=
  ⟨(r.first + r.delta).toNat, (r.last + r.delta).toNat, r.stride, -r.delta⟩

end CaseRun

/-- The first and the last small letter where small letters stand right behind their capitals. -/
def alternating : List (Nat × Nat) := [
  (0x101, 0x12F), (0x133, 0x137), (0x13A, 0x148), (0x14B, 0x177), (0x17A, 0x17E), (0x183, 0x185),
  (0x188, 0x188), (0x18C, 0x18C), (0x192, 0x192), (0x199, 0x199), (0x1A1, 0x1A5), (0x1A8, 0x1A8),
  (0x1AD, 0x1AD), (0x1B0, 0x1B0), (0x1B4, 0x1B6), (0x1B9, 0x1B9), (0x1BD, 0x1BD), (0x1CE, 0x1DC),
  (0x1DF, 0x1EF), (0x1F5, 0x1F5), (0x1F9, 0x21F), (0x223, 0x233), (0x23C, 0x23C), (0x242, 0x242),
  (0x247, 0x24F), (0x371, 0x373), (0x377, 0x377), (0x3D9, 0x3EF), (0x3F8, 0x3F8), (0x3FB, 0x3FB),
  (0x461, 0x481), (0x48B, 0x4BF), (0x4C2, 0x4CE), (0x4D1, 0x52F), (0x1E01, 0x1E95),
  (0x1EA1, 0x1EFF), (0x2184, 0x2184), (0x2C61, 0x2C61), (0x2C68, 0x2C6C), (0x2C73, 0x2C73),
  (0x2C76, 0x2C76), (0x2C81, 0x2CE3), (0x2CEC, 0x2CEE), (0x2CF3, 0x2CF3), (0xA641, 0xA66D),
  (0xA681, 0xA69B), (0xA723, 0xA72F), (0xA733, 0xA76F), (0xA77A, 0xA77C), (0xA77F, 0xA787),
  (0xA78C, 0xA78C), (0xA791, 0xA793), (0xA797, 0xA7A9), (0xA7B5, 0xA7C3), (0xA7C8, 0xA7CA),
  (0xA7D1, 0xA7D1), (0xA7D7, 0xA7D9), (0xA7F6, 0xA7F6)]

/-- The small letters from U+0080 on that map to a capital which maps back to them. -/
def casePairs : List CaseRun := alternating.map (fun p => ⟨p.1, p.2, 2, -1⟩) ++ [
  ⟨0xE0, 0xF6, 1, -32⟩, ⟨0xF8, 0xFE, 1, -32⟩, .one 0xFF 121, .one 0x180 195, .one 0x195 97,
  .one 0x19A 163, .one 0x19E 130, .one 0x1BF 56, .one 0x1C6 (-2), .one 0x1C9 (-2), .one 0x1CC (-2),
  .one 0x1DD (-79), .one 0x1F3 (-2), ⟨0x23F, 0x240, 1, 10815⟩, .one 0x250 10783, .one 0x251 10780,
  .one 0x252 10782, .one 0x253 (-210), .one 0x254 (-206), ⟨0x256, 0x257, 1, -205⟩,
  .one 0x259 (-202), .one 0x25B (-203), .one 0x25C 42319, .one 0x260 (-205), .one 0x261 42315,
  .one 0x263 (-207), .one 0x265 42280, .one 0x266 42308, .one 0x268 (-209), .one 0x269 (-211),
  .one 0x26A 42308, .one 0x26B 10743, .one 0x26C 42305, .one 0x26F (-211), .one 0x271 10749,
  .one 0x272 (-213), .one 0x275 (-214), .one 0x27D 10727, .one 0x280 (-218), .one 0x282 42307,
  .one 0x283 (-218), .one 0x287 42282, .one 0x288 (-218), .one 0x289 (-69), ⟨0x28A, 0x28B, 1, -217⟩,
  .one 0x28C (-71), .one 0x292 (-219), .one 0x29D 42261, .one 0x29E 42258, ⟨0x37B, 0x37D, 1, 130⟩,
  .one 0x3AC (-38), ⟨0x3AD, 0x3AF, 1, -37⟩, ⟨0x3B1, 0x3C1, 1, -32⟩, ⟨0x3C3, 0x3CB, 1, -32⟩,
  .one 0x3CC (-64), ⟨0x3CD, 0x3CE, 1, -63⟩, .one 0x3D7 (-8), .one 0x3F2 7, .one 0x3F3 (-116),
  ⟨0x430, 0x44F, 1, -32⟩, ⟨0x450, 0x45F, 1, -80⟩, .one 0x4CF (-15), ⟨0x561, 0x586, 1, -48⟩,
  ⟨0x10D0, 0x10FA, 1, 3008⟩, ⟨0x10FD, 0x10FF, 1, 3008⟩, ⟨0x13F8, 0x13FD, 1, -8⟩, .one 0x1D79 35332,
  .one 0x1D7D 3814, .one 0x1D8E 35384, ⟨0x1F00, 0x1F07, 1, 8⟩, ⟨0x1F10, 0x1F15, 1, 8⟩,
  ⟨0x1F20, 0x1F27, 1, 8⟩, ⟨0x1F30, 0x1F37, 1, 8⟩, ⟨0x1F40, 0x1F45, 1, 8⟩, ⟨0x1F51, 0x1F57, 2, 8⟩,
  ⟨0x1F60, 0x1F67, 1, 8⟩, ⟨0x1F70, 0x1F71, 1, 74⟩, ⟨0x1F72, 0x1F75, 1, 86⟩,
  ⟨0x1F76, 0x1F77, 1, 100⟩, ⟨0x1F78, 0x1F79, 1, 128⟩, ⟨0x1F7A, 0x1F7B, 1, 112⟩,
  ⟨0x1F7C, 0x1F7D, 1, 126⟩, ⟨0x1FB0, 0x1FB1, 1, 8⟩, ⟨0x1FD0, 0x1FD1, 1, 8⟩, ⟨0x1FE0, 0x1FE1, 1, 8⟩,
  .one 0x1FE5 7, .one 0x214E (-28), ⟨0x2170, 0x217F, 1, -16⟩, ⟨0x24D0, 0x24E9, 1, -26⟩,
  ⟨0x2C30, 0x2C5F, 1, -48⟩, .one 0x2C65 (-10795), .one 0x2C66 (-10792), ⟨0x2D00, 0x2D25, 1, -7264⟩,
  .one 0x2D27 (-7264), .one 0x2D2D (-7264), .one 0xA794 48, .one 0xAB53 (-928),
  ⟨0xAB70, 0xABBF, 1, -38864⟩, ⟨0xFF41, 0xFF5A, 1, -32⟩, ⟨0x10428, 0x1044F, 1, -40⟩,
  ⟨0x104D8, 0x104FB, 1, -40⟩, ⟨0x10597, 0x105BB, 2, -39⟩, ⟨0x10598, 0x105A0, 2, -39⟩,
  ⟨0x105A4, 0x105B0, 2, -39⟩, ⟨0x105B4, 0x105B8, 2, -39⟩, .one 0x105BC (-39),
  ⟨0x10CC0, 0x10CF2, 1, -64⟩, ⟨0x118C0, 0x118DF, 1, -32⟩, ⟨0x16E60, 0x16E7F, 1, -32⟩,
  ⟨0x1E922, 0x1E943, 1, -34⟩]

/-- Runs to upper case from U+0080 on. -/
def upperRuns : List CaseRun := casePairs ++ [
  .one 0xB5 743, .one 0x131 (-232), .one 0x17F (-300), .one 0x1C5 (-1), .one 0x1C8 (-1),
  .one 0x1CB (-1), .one 0x1F2 (-1), .one 0x345 84, .one 0x3C2 (-31), .one 0x3D0 (-62),
  .one 0x3D1 (-57), .one 0x3D5 (-47), .one 0x3D6 (-54), .one 0x3F0 (-86), .one 0x3F1 (-80),
  .one 0x3F5 (-96), .one 0x1C80 (-6254), .one 0x1C81 (-6253), .one 0x1C82 (-6244),
  ⟨0x1C83, 0x1C84, 1, -6242⟩, .one 0x1C85 (-6243), .one 0x1C86 (-6236), .one 0x1C87 (-6181),
  .one 0x1C88 35266, .one 0x1E9B (-59), .one 0x1FBE (-7205)]

/-- Runs to lower case from U+0080 on. -/
def lowerRuns : List CaseRun := casePairs.map CaseRun.inverse ++ [
  .one 0x1C5 1, .one 0x1C8 1, .one 0x1CB 1, .one 0x1F2 1, .one 0x3F4 (-60), .one 0x1E9E (-7615),
  ⟨0x1F88, 0x1F8F, 1, -8⟩, ⟨0x1F98, 0x1F9F, 1, -8⟩, ⟨0x1FA8, 0x1FAF, 1, -8⟩, .one 0x1FBC (-9),
  .one 0x1FCC (-9), .one 0x1FFC (-9), .one 0x2126 (-7517), .one 0x212A (-8383), .one 0x212B (-8262)]

/-- Greek letters with an iota below: sixteen from `first` on, small ones and then capitals, whose
upper-case forms are the eight capitals from `capital` on, each with an iota behind it. -/
def iotaExpansions (first capital : Nat) : List (Nat × List Nat) :=
  (List.range 16).map fun k => (first + k, [capital + k % 8, 0x399])

/-- Characters whose upper-case form has several characters. -/
def upperExpansions : List (Nat × List Nat) :=
  iotaExpansions 0x1F80 0x1F08 ++ iotaExpansions 0x1F90 0x1F28 ++ iotaExpansions 0x1FA0 0x1F68 ++ [
    (0xDF, [0x53, 0x53]), (0x149, [0x2BC, 0x4E]), (0x1F0, [0x4A, 0x30C]),
    (0x390, [0x399, 0x308, 0x301]), (0x3B0, [0x3A5, 0x308, 0x301]), (0x587, [0x535, 0x552]),
    (0x1E96, [0x48, 0x331]), (0x1E97, [0x54, 0x308]), (0x1E98, [0x57, 0x30A]),
    (0x1E99, [0x59, 0x30A]), (0x1E9A, [0x41, 0x2BE]), (0x1F50, [0x3A5, 0x313]),
    (0x1F52, [0x3A5, 0x313, 0x300]), (0x1F54, [0x3A5, 0x313, 0x301]),
    (0x1F56, [0x3A5, 0x313, 0x342]), (0x1FB2, [0x1FBA, 0x399]), (0x1FB3, [0x391, 0x399]),
    (0x1FB4, [0x386, 0x399]), (0x1FB6, [0x391, 0x342]), (0x1FB7, [0x391, 0x342, 0x399]),
    (0x1FBC, [0x391, 0x399]), (0x1FC2, [0x1FCA, 0x399]), (0x1FC3, [0x397, 0x399]),
    (0x1FC4, [0x389, 0x399]), (0x1FC6, [0x397, 0x342]), (0x1FC7, [0x397, 0x342, 0x399]),
    (0x1FCC, [0x397, 0x399]), (0x1FD2, [0x399, 0x308, 0x300]), (0x1FD3, [0x399, 0x308, 0x301]),
    (0x1FD6, [0x399, 0x342]), (0x1FD7, [0x399, 0x308, 0x342]), (0x1FE2, [0x3A5, 0x308, 0x300]),
    (0x1FE3, [0x3A5, 0x308, 0x301]), (0x1FE4, [0x3A1, 0x313]), (0x1FE6, [0x3A5, 0x342]),
    (0x1FE7, [0x3A5, 0x308, 0x342]), (0x1FF2, [0x1FFA, 0x399]), (0x1FF3, [0x3A9, 0x399]),
    (0x1FF4, [0x38F, 0x399]), (0x1FF6, [0x3A9, 0x342]), (0x1FF7, [0x3A9, 0x342, 0x399]),
    (0x1FFC, [0x3A9, 0x399]), (0xFB00, [0x46, 0x46]), (0xFB01, [0x46, 0x49]),
    (0xFB02, [0x46, 0x4C]), (0xFB03, [0x46, 0x46, 0x49]), (0xFB04, [0x46, 0x46, 0x4C]),
    (0xFB05, [0x53, 0x54]), (0xFB06, [0x53, 0x54]), (0xFB13, [0x544, 0x546]),
    (0xFB14, [0x544, 0x535]), (0xFB15, [0x544, 0x53B]), (0xFB16, [0x54E, 0x546]),
    (0xFB17, [0x544, 0x53D])]

/-- Characters whose lower-case form has several characters. -/
def lowerExpansions : List (Nat × List Nat) :=
  [(0x130, [0x69, 0x307])]

end Pseudocode.Text
