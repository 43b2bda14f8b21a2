/-!
# Blanks

A blank is a character with the property White_Space: twenty-five characters, among them the line
ends, the no-break space and the ideographic space.  Zero-width characters and the information
separators are no blanks.
-/

namespace ContextFree.Text

def isBlank (c : Char) : Bool :=
  let code := c.toNat
  (0x09 ≤ code && code ≤ 0x0D) || code == 0x20 || code == 0x85 || code == 0xA0 ||
    code == 0x1680 || (0x2000 ≤ code && code ≤ 0x200A) || code == 0x2028 || code == 0x2029 ||
    code == 0x202F || code == 0x205F || code == 0x3000

end ContextFree.Text
