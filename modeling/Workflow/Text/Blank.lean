/-!
# Blank text

White space is the Unicode property of that name.  A text is blank when nothing
else is in it; trimming removes white space from both ends.
-/

namespace Workflow
namespace Text

/-- The characters with the property `White_Space`. -/
def isSpace (c : Char) : Bool :=
  let n := c.toNat
  (9 <= n && n <= 13) || n == 0x20 || n == 0x85 || n == 0xA0 || n == 0x1680 ||
  (0x2000 <= n && n <= 0x200A) || n == 0x2028 || n == 0x2029 || n == 0x202F ||
  n == 0x205F || n == 0x3000

def isBlank (s : String) : Bool :=
  s.toList.all isSpace

/-- A list without the elements at either end that satisfy `p`. -/
def trimEnds (p : α -> Bool) (xs : List α) : List α :=
  ((xs.dropWhile p).reverse.dropWhile p).reverse

def trim (s : String) : String :=
  String.ofList (trimEnds isSpace s.toList)

end Text
end Workflow
