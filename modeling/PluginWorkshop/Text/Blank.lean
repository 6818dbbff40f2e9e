/-!
# Blank characters

A blank is a character with the Unicode property `White_Space`. Source lines are trimmed of
blanks on both sides; the indentation of a line counts spaces and tabs only.
-/

namespace PluginWorkshop.Text

/-- Characters with the Unicode property `White_Space`. -/
def isBlank (c : Char) : Bool :=
  let n := c.toNat
  (9 ≤ n && n ≤ 13) || n == 0x20 || n == 0x85 || n == 0xA0 || n == 0x1680 ||
    (0x2000 ≤ n && n ≤ 0x200A) || n == 0x2028 || n == 0x2029 || n == 0x202F || n == 0x205F ||
    n == 0x3000

/-- Every blank of the ASCII range is a blank here. -/
theorem isBlank_of_isWhitespace {c : Char} (h : c.isWhitespace = true) : isBlank c = true := by
  simp only [Char.isWhitespace, Bool.or_eq_true, decide_eq_true_eq] at h
  rcases h with ((h | h) | h) | h <;> subst h <;> decide

def dropBlanks (s : List Char) : List Char := s.dropWhile isBlank

def dropBlanksRight (s : List Char) : List Char := (s.reverse.dropWhile isBlank).reverse

def trim (s : List Char) : List Char := dropBlanksRight (dropBlanks s)

/-- Nothing is left of the text once it is trimmed. -/
def isAllBlank (s : List Char) : Bool := s.all isBlank

def isSpaceOrTab (c : Char) : Bool := c == ' ' || c == '\t'

/-- The spaces and tabs a line starts with. -/
def indentation (s : List Char) : List Char := s.takeWhile isSpaceOrTab

/-- What follows the indentation. -/
def afterIndentation (s : List Char) : List Char := s.dropWhile isSpaceOrTab

@[simp] theorem indentation_append_afterIndentation (s : List Char) :
    indentation s ++ afterIndentation s = s :=
  List.takeWhile_append_dropWhile

end PluginWorkshop.Text
