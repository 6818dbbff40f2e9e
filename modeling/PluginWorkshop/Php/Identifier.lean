import PluginWorkshop.Text.Ascii

/-!
# Identifiers

A PHP identifier as this library accepts it: ASCII letters, digits and underscores, of which a
digit does not come first.
-/

namespace PluginWorkshop.Php

open Text

def isIdentifierStart (c : Char) : Bool := isLetter c || c == '_'

def isIdentifierPart (c : Char) : Bool := isLetterOrDigit c || c == '_'

/-- Whether the text is an identifier. -/
def isIdentifier : List Char → Bool
  | [] => false
  | c :: rest => isIdentifierStart c && rest.all isIdentifierPart

end PluginWorkshop.Php
