/-!
# ASCII letters

Case is mapped for the letters `A` to `Z` only; every other character stands for itself.
-/

namespace PluginWorkshop.Text

def isLetter (c : Char) : Bool := ('a' ≤ c && c ≤ 'z') || ('A' ≤ c && c ≤ 'Z')

def isDigit (c : Char) : Bool := '0' ≤ c && c ≤ '9'

def isLetterOrDigit (c : Char) : Bool := isLetter c || isDigit c

def lower (s : String) : String := String.ofList (s.toList.map Char.toLower)

/-- Equal up to the case of ASCII letters. -/
def equalIgnoringCase (s t : String) : Bool := lower s == lower t

/-- The text with its first character in upper case. -/
def capitalize (s : String) : String :=
  match s.toList with
  | [] => ""
  | c :: rest => String.ofList (c.toUpper :: rest)

end PluginWorkshop.Text
