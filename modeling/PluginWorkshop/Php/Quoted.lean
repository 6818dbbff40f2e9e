/-!
# Single-quoted strings

Between single quotes PHP knows two escapes: a backslash before a backslash and a backslash before
a quote. Every other backslash stands for itself.
-/

namespace PluginWorkshop.Php.Quoted

/-- The content of a string as it stands between single quotes. -/
def encode : List Char → List Char
  | [] => []
  | c :: rest => if c = '\\' ∨ c = '\'' then '\\' :: c :: encode rest else c :: encode rest

/-- The content that stands between single quotes; none if a quote ends it early. -/
def decode? : List Char → Option (List Char)
  | [] => some []
  | '\\' :: '\\' :: rest => (decode? rest).map ('\\' :: ·)
  | '\\' :: '\'' :: rest => (decode? rest).map ('\'' :: ·)
  | '\'' :: _ => none
  | c :: rest => (decode? rest).map (c :: ·)

theorem decode?_encode (s : List Char) : decode? (encode s) = some s := by
  induction s with
  | nil => rfl
  | cons c rest ih =>
    by_cases hb : c = '\\'
    · subst hb; simp [encode, decode?, ih]
    · by_cases hq : c = '\''
      · subst hq; simp [encode, decode?, ih]
      · rw [encode, if_neg (by simp [hb, hq]), decode?.eq_def]
        split <;> simp_all

/-- The text as a string in single quotes. -/
def quote (text : String) : String := String.ofList ('\'' :: encode text.toList ++ ['\''])

end PluginWorkshop.Php.Quoted
