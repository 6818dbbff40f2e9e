/-!
# Splitting, joining and searching text

Text is a list of characters here. `splitOn` cuts at every separator and `join` puts the
separators back (`join_splitOn`).
-/

namespace PluginWorkshop.Text

/-- The pieces between the characters that satisfy `sep`; there is always at least one. -/
def splitWhere (sep : Char → Bool) : List Char → List (List Char)
  | [] => [[]]
  | c :: rest =>
    if sep c then [] :: splitWhere sep rest
    else
      match splitWhere sep rest with
      | [] => [[c]]
      | piece :: pieces => (c :: piece) :: pieces

/-- The pieces between the occurrences of one character. -/
def splitOn (sep : Char) : List Char → List (List Char) := splitWhere (· == sep)

/-- The pieces with `sep` between neighbours. -/
def join (sep : List Char) : List (List Char) → List Char
  | [] => []
  | [piece] => piece
  | piece :: next :: pieces => piece ++ sep ++ join sep (next :: pieces)

theorem splitWhere_ne_nil (sep : Char → Bool) (s : List Char) : splitWhere sep s ≠ [] := by
  cases s with
  | nil => simp [splitWhere]
  | cons c rest =>
    unfold splitWhere
    split
    · simp
    · split <;> simp

theorem join_splitOn (sep : Char) (s : List Char) : join [sep] (splitOn sep s) = s := by
  unfold splitOn
  induction s with
  | nil => rfl
  | cons c rest ih =>
    rw [splitWhere]
    cases hp : splitWhere (· == sep) rest with
    | nil => exact absurd hp (splitWhere_ne_nil _ _)
    | cons piece pieces =>
      rw [hp] at ih
      by_cases h : c = sep
      · simp [h, join, ih]
      · cases pieces <;> simp_all [join]

/-- The text from the first occurrence of `pattern` on, if there is one. -/
def suffixFrom? (pattern : List Char) : List Char → Option (List Char)
  | [] => if pattern.isEmpty then some [] else none
  | c :: rest =>
    if pattern.isPrefixOf (c :: rest) then some (c :: rest) else suffixFrom? pattern rest

/-- What follows `pattern` at the start of the text. -/
def afterPrefix? : List Char → List Char → Option (List Char)
  | [], s => some s
  | _ :: _, [] => none
  | p :: pattern, c :: s => if p = c then afterPrefix? pattern s else none

/-- Whether `pattern` stands anywhere in the text. -/
def containsText (pattern s : List Char) : Bool := (suffixFrom? pattern s).isSome

/-- Every occurrence of the character `c` replaced by `text`. -/
def replaceChar (c : Char) (text s : List Char) : List Char :=
  s.flatMap fun d => if d == c then text else [d]

/-- The text without the characters at either end that satisfy `p`. -/
def trimWhere (p : Char → Bool) (s : List Char) : List Char :=
  ((s.dropWhile p).reverse.dropWhile p).reverse

end PluginWorkshop.Text
