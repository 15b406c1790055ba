import Grammarian.Text.Ranges

/-!
# White space

The characters with the `White_Space` property in Unicode 16.
-/

namespace Grammarian.Text

/-- The characters a `\s` stands for. -/
def spaceRanges : Ranges := Ranges.ofText "
  9-d 20 85 a0 1680 2000-200a 2028-2029 202f 205f 3000
"

end Grammarian.Text
