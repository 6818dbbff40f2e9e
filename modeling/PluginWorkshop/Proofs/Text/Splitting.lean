import PluginWorkshop.Text.Split
import Mathlib.Data.List.Infix

/-!
# Pieces of a text

Splitting at a separator undoes joining with it (`splitOn_join_append`), and each piece stands in
the text between separators (`exists_append_of_mem_splitOn`). Replacing the separator between pieces
joins them with another text (`replaceChar_intercalate`). A text contains a pattern exactly if the
pattern is an infix of it (`containsText_iff`).
-/

namespace PluginWorkshop.Text

/-! ## Splitting and joining -/

variable {sep : Char} {s : List Char}

theorem splitWhere_append_cons {p : Char → Bool} {c : Char} (hc : p c = true) (a b : List Char) :
    splitWhere p (a ++ c :: b) = splitWhere p a ++ splitWhere p b := by
  induction a with
  | nil => simp [splitWhere, hc]
  | cons d a ih =>
    rw [List.cons_append, splitWhere, splitWhere]
    split_ifs
    · rw [ih]; rfl
    · rw [ih]
      cases h : splitWhere p a with
      | nil => exact absurd h (splitWhere_ne_nil _ _)
      | cons piece pieces => rfl

theorem splitOn_append_cons (a b : List Char) :
    splitOn sep (a ++ sep :: b) = splitOn sep a ++ splitOn sep b := by
  rw [splitOn]
  exact splitWhere_append_cons (by simp) a b

theorem exists_splitOn_eq (sep : Char) (s : List Char) :
    ∃ front last, splitOn sep s = front ++ [last] := by
  simpa using (List.eq_nil_or_concat (splitOn sep s)).resolve_left (splitWhere_ne_nil _ _)

theorem two_le_length_splitOn (h : sep ∈ s) : 2 ≤ (splitOn sep s).length := by
  obtain ⟨a, b, rfl⟩ := List.append_of_mem h
  have ha := List.length_pos_iff.mpr (splitWhere_ne_nil (· == sep) a)
  have hb := List.length_pos_iff.mpr (splitWhere_ne_nil (· == sep) b)
  rw [splitOn_append_cons, List.length_append]
  simp only [splitOn]
  omega

theorem join_eq_intercalate (sep : List Char) :
    ∀ pieces : List (List Char), join sep pieces = sep.intercalate pieces
  | [] => rfl
  | [piece] => by simp [join]
  | piece :: next :: pieces => by
    rw [join, join_eq_intercalate sep (next :: pieces), List.intercalate_cons_cons]

theorem splitWhere_of_forall {p : Char → Bool} (h : ∀ c ∈ s, p c = false) :
    splitWhere p s = [s] := by
  induction s with
  | nil => rfl
  | cons c s ih =>
    rw [splitWhere, if_neg (by simp [h c List.mem_cons_self]),
      ih fun d hd => h d (List.mem_cons_of_mem c hd)]

theorem splitOn_of_notMem (h : sep ∉ s) : splitOn sep s = [s] :=
  splitWhere_of_forall fun _ hc => beq_eq_false_iff_ne.mpr fun heq => h (heq ▸ hc)

/-- Text without a separator goes to the first piece. -/
theorem splitOn_append_of_notMem {a first : List Char} {pieces : List (List Char)} (ha : sep ∉ a)
    (h : splitOn sep s = first :: pieces) : splitOn sep (a ++ s) = (a ++ first) :: pieces := by
  induction a with
  | nil => exact h
  | cons c a ih =>
    rw [List.mem_cons, not_or] at ha
    have ih := ih ha.2
    rw [splitOn] at ih
    rw [splitOn, List.cons_append, splitWhere, if_neg (by simpa using Ne.symm ha.1), ih]
    rfl

/-- The last piece ends as the text does. -/
theorem exists_splitOn_concat {c : Char} (hc : c ≠ sep) (s : List Char) :
    ∃ front last, splitOn sep (s ++ [c]) = front ++ [last ++ [c]] := by
  induction s with
  | nil => exact ⟨[], [], splitOn_of_notMem (by simpa using Ne.symm hc)⟩
  | cons d s ih =>
    obtain ⟨front, last, h⟩ := ih
    rw [splitOn] at h
    rw [splitOn, List.cons_append, splitWhere, h]
    split_ifs
    · exact ⟨[] :: front, last, rfl⟩
    · cases front with
      | nil => exact ⟨[], d :: last, rfl⟩
      | cons piece front => exact ⟨(d :: piece) :: front, last, rfl⟩

theorem join_cons_of_ne_nil {piece : List Char} {pieces : List (List Char)} (h : pieces ≠ [])
    (sep : List Char) : join sep (piece :: pieces) = piece ++ sep ++ join sep pieces := by
  obtain ⟨next, pieces, rfl⟩ := List.exists_cons_of_ne_nil h
  rfl

theorem join_append (sep : List Char) {a b : List (List Char)} (ha : a ≠ []) (hb : b ≠ []) :
    join sep (a ++ b) = join sep a ++ sep ++ join sep b := by
  induction a with
  | nil => exact absurd rfl ha
  | cons piece a ih =>
    rw [List.cons_append, join_cons_of_ne_nil (List.append_ne_nil_of_right_ne_nil _ hb)]
    cases a with
    | nil => rfl
    | cons next a =>
      rw [ih (List.cons_ne_nil _ _), join_cons_of_ne_nil (List.cons_ne_nil _ _)]
      simp

theorem exists_append_of_join (piece : List Char) (rest : List (List Char)) :
    ∀ front, ∃ a b, join [sep] (front ++ piece :: rest) = a ++ piece ++ b ∧
      (rest = [] ∧ b = [] ∨ ∃ tail, b = sep :: tail)
  | [] => by
    cases rest with
    | nil => exact ⟨[], [], by simp [join], Or.inl ⟨rfl, rfl⟩⟩
    | cons next rest => exact ⟨[], sep :: join [sep] (next :: rest), by simp [join], Or.inr ⟨_, rfl⟩⟩
  | first :: front => by
    obtain ⟨a, b, h, hb⟩ := exists_append_of_join piece rest front
    refine ⟨first ++ [sep] ++ a, b, ?_, hb⟩
    rw [List.cons_append, join_cons_of_ne_nil (by simp), h]
    simp

/-- A character that is in no separator is in one of the pieces. -/
theorem mem_intercalate {c : Char} {sep : String} (hsep : c ∉ sep.toList) (pieces : List String) :
    c ∈ (sep.intercalate pieces).toList ↔ ∃ piece ∈ pieces, c ∈ piece.toList := by
  induction pieces with
  | nil => simp
  | cons piece pieces ih =>
    cases pieces with
    | nil => simp
    | cons next pieces =>
      rw [String.intercalate_cons_cons, String.toList_append, String.toList_append,
        List.mem_append, List.mem_append, ih, List.exists_mem_cons_iff]
      simp [hsep]

/-- A piece reaches up to a separator or to the end of the text. -/
theorem exists_append_of_mem_splitOn {piece : List Char} (h : piece ∈ splitOn sep s) :
    ∃ a b, s = a ++ piece ++ b ∧ (b = [] ∨ ∃ tail, b = sep :: tail) := by
  obtain ⟨front, rest, hpieces⟩ := List.append_of_mem h
  obtain ⟨a, b, hjoin, hend⟩ := @exists_append_of_join sep piece rest front
  exact ⟨a, b, by rw [← hjoin, ← hpieces, join_splitOn], hend.imp And.right id⟩

/-- No piece holds a separator. -/
theorem of_mem_splitWhere {sep : Char → Bool} {piece : List Char} {c : Char}
    (h : piece ∈ splitWhere sep s) (hc : c ∈ piece) : sep c = false := by
  induction s generalizing piece with
  | nil =>
    obtain rfl : piece = [] := by simpa [splitWhere] using h
    cases hc
  | cons d s ih =>
    obtain ⟨first, pieces, hpieces⟩ := List.exists_cons_of_ne_nil (splitWhere_ne_nil sep s)
    rw [hpieces] at ih
    rw [splitWhere, hpieces] at h
    split_ifs at h with hd
    · rcases List.mem_cons.mp h with rfl | h
      · cases hc
      · exact ih h hc
    · rcases List.mem_cons.mp h with rfl | h
      · rcases List.mem_cons.mp hc with rfl | hc
        · simpa using hd
        · exact ih List.mem_cons_self hc
      · exact ih (List.mem_cons_of_mem _ h) hc

theorem notMem_of_mem_splitOn {piece : List Char} (h : piece ∈ splitOn sep s) : sep ∉ piece :=
  fun hmem => by simpa using of_mem_splitWhere h hmem

/-- Lines that end with the same text before each separator, but for the last one. -/
theorem splitOn_join_append {ending last : List Char} {lines : List (List Char)}
    (hending : sep ∉ ending) (hlines : ∀ line ∈ lines, sep ∉ line) (hlast : sep ∉ last) :
    splitOn sep (join (ending ++ [sep]) (lines ++ [last])) =
      lines.map (· ++ ending) ++ [last] := by
  induction lines with
  | nil => exact splitOn_of_notMem hlast
  | cons line lines ih =>
    have hline : sep ∉ line ++ ending := by
      simpa [hending] using hlines line List.mem_cons_self
    have hjoin : join (ending ++ [sep]) (line :: lines ++ [last]) =
        (line ++ ending) ++ sep :: join (ending ++ [sep]) (lines ++ [last]) := by
      rw [List.cons_append, join_cons_of_ne_nil (by simp)]
      simp
    rw [hjoin, splitOn_append_cons, splitOn_of_notMem hline,
      ih fun l hl => hlines l (List.mem_cons_of_mem line hl)]
    rfl

/-- Pieces that hold no separator are cut out again, unless there are none. -/
theorem splitOn_join {pieces : List (List Char)} (hne : pieces ≠ [])
    (h : ∀ piece ∈ pieces, sep ∉ piece) : splitOn sep (join [sep] pieces) = pieces := by
  obtain ⟨front, last, rfl⟩ := (List.eq_nil_or_concat pieces).resolve_left hne
  rw [List.concat_eq_append] at h ⊢
  have hsplit := splitOn_join_append List.not_mem_nil
    (fun piece hpiece => h piece (List.mem_append_left _ hpiece)) (h last (by simp))
  simpa using hsplit

/-- Joined pieces are cut where they were joined, and each of them where it holds the separator. -/
theorem splitOn_join_eq_flatMap {pieces : List (List Char)} (hne : pieces ≠ []) :
    splitOn sep (join [sep] pieces) = pieces.flatMap (splitOn sep) := by
  induction pieces with
  | nil => exact absurd rfl hne
  | cons piece pieces ih =>
    cases pieces with
    | nil => simp [join]
    | cons next pieces =>
      have hjoin : join [sep] (piece :: next :: pieces) =
          piece ++ sep :: join [sep] (next :: pieces) := by
        rw [join]
        simp
      rw [hjoin, splitOn_append_cons, ih (List.cons_ne_nil _ _)]
      rfl

theorem length_le_length_flatMap_splitOn (sep : Char) (pieces : List (List Char)) :
    pieces.length ≤ (pieces.flatMap (splitOn sep)).length := by
  induction pieces with
  | nil => exact Nat.le_refl 0
  | cons piece pieces ih =>
    have hpiece : 0 < (splitOn sep piece).length :=
      List.length_pos_iff.mpr (splitWhere_ne_nil _ _)
    rw [List.flatMap_cons, List.length_append, List.length_cons]
    omega

/-- Cutting gives as many pieces as there were exactly if none of them holds the separator. -/
theorem length_flatMap_splitOn_eq_iff (sep : Char) (pieces : List (List Char)) :
    (pieces.flatMap (splitOn sep)).length = pieces.length ↔ ∀ piece ∈ pieces, sep ∉ piece := by
  induction pieces with
  | nil => simp
  | cons piece pieces ih =>
    have hle := length_le_length_flatMap_splitOn sep pieces
    rw [List.flatMap_cons, List.length_append, List.length_cons, List.forall_mem_cons, ← ih]
    by_cases hmem : sep ∈ piece
    · have htwo := two_le_length_splitOn hmem
      refine iff_of_false (by omega) fun h => h.1 hmem
    · rw [splitOn_of_notMem hmem, List.length_singleton]
      simp only [hmem, not_false_iff, true_and]
      omega

/-- A piece without the separator is cut out again, whatever the other pieces are. -/
theorem mem_splitOn_join {ending piece : List Char} {pieces : List (List Char)}
    (hending : sep ∉ ending) (hpiece : sep ∉ piece) (h : piece ∈ pieces) :
    piece ++ ending ∈ splitOn sep (join (ending ++ [sep]) pieces) ∨
      piece ∈ splitOn sep (join (ending ++ [sep]) pieces) := by
  induction pieces with
  | nil => cases h
  | cons first pieces ih =>
    cases pieces with
    | nil =>
      obtain rfl := List.mem_singleton.mp h
      rw [join, splitOn_of_notMem hpiece]
      exact Or.inr List.mem_cons_self
    | cons next pieces =>
      have hjoin : join (ending ++ [sep]) (first :: next :: pieces) =
          (first ++ ending) ++ sep :: join (ending ++ [sep]) (next :: pieces) := by
        rw [join]
        simp
      rw [hjoin, splitOn_append_cons]
      rcases List.mem_cons.mp h with rfl | h
      · have hnone : sep ∉ piece ++ ending := by simp [hpiece, hending]
        rw [splitOn_of_notMem hnone]
        exact Or.inl (List.mem_append_left _ List.mem_cons_self)
      · exact (ih h).imp (List.mem_append_right _) (List.mem_append_right _)

/-! ## Replacing -/

section

variable {c : Char} (text : List Char)

theorem replaceChar_append (a b : List Char) :
    replaceChar c text (a ++ b) = replaceChar c text a ++ replaceChar c text b := by
  simp [replaceChar]

theorem replaceChar_cons_ne {d : Char} (h : d ≠ c) (s : List Char) :
    replaceChar c text (d :: s) = d :: replaceChar c text s := by
  simp [replaceChar, h]

theorem replaceChar_of_notMem (h : c ∉ s) : replaceChar c text s = s := by
  induction s with
  | nil => rfl
  | cons d s ih =>
    rw [replaceChar_cons_ne text (by rintro rfl; simp at h), ih fun hm => h (by simp [hm])]

/-- Replacing the separator puts other text between the same pieces. -/
theorem replaceChar_intercalate {pieces : List (List Char)} (h : ∀ piece ∈ pieces, c ∉ piece) :
    replaceChar c text ([c].intercalate pieces) = text.intercalate pieces := by
  have hself : replaceChar c text [c] = text := by simp [replaceChar]
  induction pieces with
  | nil => rfl
  | cons piece pieces ih =>
    have hpiece := replaceChar_of_notMem text (h piece List.mem_cons_self)
    cases pieces with
    | nil => simpa using hpiece
    | cons next pieces =>
      rw [List.intercalate_cons_cons, List.intercalate_cons_cons, replaceChar_append,
        replaceChar_append, hpiece, hself, ih fun p hp => h p (List.mem_cons_of_mem _ hp)]

end

/-! ## Searching -/

theorem afterPrefix?_eq_some {pattern rest : List Char} :
    afterPrefix? pattern s = some rest ↔ s = pattern ++ rest := by
  induction pattern generalizing s with
  | nil => simp [afterPrefix?]
  | cons p pattern ih =>
    cases s with
    | nil => simp [afterPrefix?]
    | cons c s =>
      rw [afterPrefix?, List.cons_append, List.cons.injEq, ← ih, eq_comm (a := c)]
      by_cases h : p = c <;> simp [h]

/-- The text from the first occurrence of a pattern on. -/
theorem suffixFrom?_eq_some_iff {pattern rest : List Char} : suffixFrom? pattern s = some rest ↔
    ∃ x y, s = x ++ pattern ++ y ∧ rest = pattern ++ y ∧
      ∀ x' y', s = x' ++ pattern ++ y' → x.length ≤ x'.length := by
  induction s with
  | nil =>
    rw [suffixFrom?]
    constructor
    · intro h
      split_ifs at h with hpattern
      obtain rfl : pattern = [] := by simpa using hpattern
      obtain rfl := Option.some.inj h
      exact ⟨[], [], rfl, rfl, fun _ _ _ => Nat.zero_le _⟩
    · rintro ⟨x, y, h, rfl, -⟩
      obtain ⟨rfl, rfl, rfl⟩ : x = [] ∧ pattern = [] ∧ y = [] := by simpa using h
      rfl
  | cons c s ih =>
    rw [suffixFrom?]
    split_ifs with hprefix
    · obtain ⟨z, hz⟩ := List.isPrefixOf_iff_prefix.mp hprefix
      constructor
      · intro h
        obtain rfl := Option.some.inj h
        exact ⟨[], z, hz.symm, hz.symm, fun _ _ _ => Nat.zero_le _⟩
      · rintro ⟨x, y, hsplit, rfl, hfirst⟩
        obtain rfl : x = [] := by simpa using hfirst [] z hz.symm
        rw [hsplit, List.nil_append]
    · have hcons : ∀ {x y}, c :: s = x ++ pattern ++ y →
          ∃ x', x = c :: x' ∧ s = x' ++ pattern ++ y := by
        intro x y h
        cases x with
        | nil => exact absurd (List.isPrefixOf_iff_prefix.mpr ⟨y, h.symm⟩) hprefix
        | cons d x =>
          obtain ⟨rfl, rfl⟩ := List.cons.inj h
          exact ⟨x, rfl, rfl⟩
      rw [ih]
      constructor
      · rintro ⟨x, y, rfl, rfl, hfirst⟩
        refine ⟨c :: x, y, rfl, rfl, fun x' y' h => ?_⟩
        obtain ⟨x', rfl, hrest⟩ := hcons h
        exact Nat.succ_le_succ (hfirst x' y' hrest)
      · rintro ⟨x, y, hsplit, rfl, hfirst⟩
        obtain ⟨x, rfl, rfl⟩ := hcons hsplit
        refine ⟨x, y, rfl, rfl, fun x' y' h => ?_⟩
        exact Nat.le_of_succ_le_succ (hfirst (c :: x') y' (by rw [h]; rfl))

theorem suffixFrom?_eq_some {pattern rest : List Char} (h : suffixFrom? pattern s = some rest) :
    ∃ a b, s = a ++ rest ∧ rest = pattern ++ b := by
  obtain ⟨x, y, hs, hrest, -⟩ := suffixFrom?_eq_some_iff.mp h
  exact ⟨x, y, by rw [hs, hrest, List.append_assoc], hrest⟩

theorem containsText_iff {pattern : List Char} :
    containsText pattern s = true ↔ pattern <:+: s := by
  rw [containsText, Option.isSome_iff_exists]
  constructor
  · rintro ⟨rest, h⟩
    obtain ⟨a, b, rfl, rfl⟩ := suffixFrom?_eq_some h
    exact ⟨a, b, by simp⟩
  · intro h
    induction s with
    | nil =>
      obtain rfl := List.eq_nil_of_infix_nil h
      exact ⟨[], rfl⟩
    | cons c s ih =>
      rw [suffixFrom?]
      split_ifs with hprefix
      · exact ⟨_, rfl⟩
      · rcases List.infix_cons_iff.mp h with hprefix' | h
        · exact absurd (List.isPrefixOf_iff_prefix.mpr hprefix') hprefix
        · exact ih h

section

variable {pattern p : List Char} {c d : Char}

/-- A pattern is not found where its first character is not. -/
theorem suffixFrom?_append_of_notMem (h : c ∉ p) (s : List Char) :
    suffixFrom? (c :: pattern) (p ++ s) = suffixFrom? (c :: pattern) s := by
  induction p with
  | nil => rfl
  | cons d p ih =>
    rw [List.mem_cons, not_or] at h
    rw [List.cons_append, suffixFrom?, if_neg (by simp [h.1]), ih h.2]

/-- Nor is it found across a character that it does not have, unless all of it is in front. -/
theorem suffixFrom?_append_cons (hd : d ∉ pattern) (hc : c ∈ pattern) (hp : c ∉ p) (s : List Char) :
    suffixFrom? pattern (p ++ d :: s) = suffixFrom? pattern s := by
  have hnone : ∀ q, c ∉ q → ¬ pattern <+: q ++ d :: s := by
    intro q hq hprefix
    rcases Nat.le_total pattern.length q.length with hle | hle
    · exact hq ((List.prefix_of_prefix_length_le hprefix (List.prefix_append q _) hle).subset hc)
    · obtain ⟨rest, rfl⟩ :=
        List.prefix_of_prefix_length_le (List.prefix_append q (d :: s)) hprefix hle
      rw [List.prefix_append_right_inj] at hprefix
      cases rest with
      | nil => exact hq (by simpa using hc)
      | cons e rest =>
        obtain rfl : e = d := (List.cons_prefix_cons.mp hprefix).1
        simp at hd
  induction p with
  | nil =>
    have hpattern := hnone [] (List.not_mem_nil)
    rw [List.nil_append] at hpattern ⊢
    rw [suffixFrom?, if_neg (mt List.isPrefixOf_iff_prefix.mp hpattern)]
  | cons e p ih =>
    have hpattern := hnone (e :: p) hp
    rw [List.mem_cons, not_or] at hp
    rw [List.cons_append] at hpattern ⊢
    rw [suffixFrom?, if_neg (mt List.isPrefixOf_iff_prefix.mp hpattern), ih hp.2]

end

end PluginWorkshop.Text
