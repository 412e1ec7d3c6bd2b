import MethodGraph.Text.Ranges
/-!
  Characters that are not drawn where they have no effect: the property
  Default_Ignorable_Code_Point of Unicode 17.0.

  Most of them are format characters or marks; the fillers of the Korean script are letters.
-/

namespace MethodGraph

/-- The code points that are ignored by default. -/
def ignorables : CodeRanges := .ofRuns 0
  [173, 1, 673, 1, 716, 1, 2882, 2, 1619, 2, 85, 5, 2043, 5, 26, 5, 49, 16, 4340, 1, 52379, 16,
   239, 1, 160, 1, 79, 9, 48295, 4, 5327, 8, 798341, 4096]

/-- Whether a character is ignored by default. -/
def isIgnorable (c : Char) : Bool := ignorables.contains c

theorem ascending_ignorables : ignorables.ascending = true := by decide +kernel

theorem count_ignorables : ignorables.count = 4174 := by decide +kernel

end MethodGraph
