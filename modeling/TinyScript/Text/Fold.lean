import TinyScript.Text.Stripe

/-!
# Case folding

Characters that differ only in case have the same simple case folding in Unicode 15. The characters with
one folding are an orbit: most orbits are a lower case letter and its capital, and a few have more members.
-/

namespace TinyScript.Text

/-- Code points that fold by the same distance. -/
structure FoldRun where
  stripe : Stripe
  delta : Int
  deriving DecidableEq, Inhabited, Repr

/-- The code points that do not fold to themselves, by how far away their folding is. -/
private def foldRows : List (Int × List String) :=
  [(32, ["41-19 66-16 2-6 2B3-10 2-8 65-1F FAF2-19 1966-1F 5581-1F"]), (775, ["B5"]),
   (1,
    ["100-2E/2 4-4/2 3-E/2 3-2C/2 3-4/2 5-2/2 3 4 6 7 8-4/2 3 5 3 4-2/2 3 4 9 3 3-10/2 3-10/2 4-2/2 4-26/2",
     "4-10/2 9 6 5-8/2 122-2/2 4 4C 16-16/2 9 3 66-20/2 A-34/2 3-C/2 3-5E/2 18D2-94/2 C-5E/2 285 ADD 7-4/2 7",
     "3 B-62/2 9-2/2 5 794E-2C/2 14-1A/2 88-C/2 4-3C/2 B-2/2 3-8/2 5 5-2/2 4-12/2 C-E/2 5-2/2 7 6-2/2 1D"]),
   (-121, ["178"]), (-268, ["17F"]), (210, ["181"]), (206, ["186"]), (205, ["189-1 9"]), (79, ["18E"]),
   (202, ["18F"]), (203, ["190"]), (207, ["194"]), (211, ["196 6"]), (209, ["197"]), (213, ["19D"]),
   (214, ["19F"]), (218, ["1A6 3 5"]), (217, ["1B1-1"]), (219, ["1B7"]), (2, ["1C4 3 3 27"]),
   (-97, ["1F6"]), (-56, ["1F7"]), (-130, ["220 1DD-2"]), (10795, ["23A"]), (-163, ["23D"]),
   (10792, ["23E"]), (-195, ["243"]), (69, ["244"]), (71, ["245"]), (116, ["345 3A"]), (38, ["386"]),
   (37, ["388-2"]), (64, ["38C 108F4-32"]), (63, ["38E-1"]), (8, ["3CF"]), (-30, ["3D0"]), (-25, ["3D1"]),
   (-15, ["3D5"]), (-22, ["3D6"]), (-54, ["3F0"]), (-48, ["3F1 A3D3"]), (-60, ["3F4"]), (-64, ["3F5"]),
   (-7, ["3F9 1BF3"]), (80, ["400-F"]), (15, ["4C0"]), (48, ["531-25 26AA-2F"]), (7264, ["10A0-25 2 6"]),
   (-8, ["13F8-5 B0B-7 9-5 B-7 9-7 9-5 C-6/2 9-7 19-7 9-7 9-7 9-1 1F-1 F-1"]), (-6222, ["1C80"]),
   (-6221, ["1C81"]), (-6212, ["1C82"]), (-6210, ["1C83-1"]), (-6211, ["1C85"]), (-6204, ["1C86"]),
   (-6180, ["1C87"]), (35267, ["1C88"]), (-3008, ["1C90-2A 3-2"]), (-58, ["1E9B"]), (-7615, ["1E9E"]),
   (-74, ["1FBA-1"]), (-9, ["1FBC 10 30"]), (-7173, ["1FBE"]), (-86, ["1FC8-3"]), (-100, ["1FDA-1"]),
   (-112, ["1FEA-1"]), (-128, ["1FF8-1"]), (-126, ["1FFA-1"]), (-7517, ["2126"]), (-8383, ["212A"]),
   (-8262, ["212B"]), (28, ["2132"]), (16, ["2160-F"]), (26, ["24B6-19"]), (-10743, ["2C62"]),
   (-3814, ["2C63"]), (-10727, ["2C64"]), (-10780, ["2C6D"]), (-10749, ["2C6E"]), (-10783, ["2C6F"]),
   (-10782, ["2C70"]), (-10815, ["2C7E-1"]), (-35332, ["A77D"]), (-42280, ["A78D"]), (-42308, ["A7AA 4"]),
   (-42319, ["A7AB"]), (-42315, ["A7AC"]), (-42305, ["A7AD"]), (-42258, ["A7B0"]), (-42282, ["A7B1"]),
   (-42261, ["A7B2"]), (928, ["A7B3"]), (-42307, ["A7C5"]), (-35384, ["A7C6"]), (-38864, ["AB70-4F"]),
   (40, ["10400-27 89-23"]), (39, ["10570-A 2-E 2-6 2-1"]), (34, ["1E900-21"])]

/-- All code points that do not fold to themselves. -/
def foldTable : List FoldRun := foldRows.flatMap fun row => (stripes row.2).map (⟨·, row.1⟩)

/-- The simple case folding of a code point. -/
def fold (n : Nat) : Nat :=
  match foldTable.find? fun r => r.stripe.contains n with
  | some r => ((n : Int) + r.delta).toNat
  | none => n

/-- All code points with the same folding as `n`. -/
def orbit (n : Nat) : List Nat :=
  let f := fold n
  f :: foldTable.filterMap fun r =>
    let m := ((f : Int) - r.delta).toNat
    if r.stripe.contains m then some m else none

end TinyScript.Text
