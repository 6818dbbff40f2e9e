import PluginWorkshop.Project.StartOptions
import PluginWorkshop.Proofs.Machine.Siblings

/-!
# Slugs

A slug is one or more words of small ASCII letters and digits with single hyphens between them
(`IsSlug`). Every text is turned into a slug, unless there is no letter and no digit in it
(`isSlug_slugify`), and a slug stays as it is (`slugify_of_isSlug`). Its words in one, each with a
capital letter, are a namespace exactly if the slug starts with a letter (`isNamespace_pascalCase`).
-/

namespace PluginWorkshop

open Text
open PluginWorkshop.Path (IsName)

/-- A small letter or a digit. -/
def isSlugChar (c : Char) : Bool := ('a' ≤ c && c ≤ 'z') || isDigit c

/-- Words of small letters and digits, with one hyphen between a word and the next. -/
inductive IsSlug : List Char → Prop where
  | word {word : List Char} (hne : word ≠ []) (hword : ∀ c ∈ word, isSlugChar c = true) : IsSlug word
  | hyphen {word rest : List Char} (hne : word ≠ []) (hword : ∀ c ∈ word, isSlugChar c = true)
      (hrest : IsSlug rest) : IsSlug (word ++ '-' :: rest)

variable {c : Char} {s word : List Char} {text slug : String}

/-! ## Characters -/

/-- What is to be said of ASCII letters and digits can be checked one by one. -/
theorem of_isLetterOrDigit {p : Char → Prop}
    (hascii : ∀ n < 128, isLetterOrDigit (Char.ofNat n) = true → p (Char.ofNat n))
    (h : isLetterOrDigit c = true) : p c := by
  have hlt : c.toNat < 128 := by
    simp only [isLetterOrDigit, isLetter, isDigit, Bool.or_eq_true, Bool.and_eq_true,
      decide_eq_true_eq, Char.le_def, UInt32.le_iff_toNat_le] at h
    rcases h with (⟨-, h⟩ | ⟨-, h⟩) | ⟨-, h⟩ <;> exact h.trans_lt (by decide)
  rw [← Char.ofNat_toNat c] at h ⊢
  exact hascii c.toNat hlt h

theorem isSlugChar_toLower (h : isLetterOrDigit c = true) : isSlugChar c.toLower = true :=
  of_isLetterOrDigit (p := fun c => isSlugChar c.toLower = true) (by decide) h

theorem isLetterOrDigit_toUpper (h : isLetterOrDigit c = true) : isLetterOrDigit c.toUpper = true :=
  of_isLetterOrDigit (p := fun c => isLetterOrDigit c.toUpper = true) (by decide) h

theorem isIdentifierStart_toUpper (h : isLetterOrDigit c = true) :
    Php.isIdentifierStart c.toUpper = isLetter c :=
  of_isLetterOrDigit (p := fun c => Php.isIdentifierStart c.toUpper = isLetter c) (by decide) h

theorem isLetterOrDigit_of_isSlugChar (h : isSlugChar c = true) : isLetterOrDigit c = true := by
  rw [isSlugChar, Bool.or_eq_true] at h
  rw [isLetterOrDigit, isLetter, Bool.or_eq_true, Bool.or_eq_true]
  exact h.imp Or.inl id

theorem toLower_of_isSlugChar (h : isSlugChar c = true) : c.toLower = c :=
  of_isLetterOrDigit (p := fun c => isSlugChar c = true → c.toLower = c) (by decide)
    (isLetterOrDigit_of_isSlugChar h) h

/-! ## Words -/

theorem of_mem_words (h : word ∈ words s) :
    word ≠ [] ∧ ∀ c ∈ word, isLetterOrDigit c = true := by
  obtain ⟨hsplit, hne⟩ := List.mem_filter.mp h
  exact ⟨by simpa using hne, fun c hc => by simpa using of_mem_splitWhere hsplit hc⟩

theorem words_append_cons (hc : isLetterOrDigit c = false) (a b : List Char) :
    words (a ++ c :: b) = words a ++ words b := by
  rw [words, splitWhere_append_cons (by simp [hc]), List.filter_append]
  rfl

theorem words_of_forall (hne : word ≠ []) (h : ∀ c ∈ word, isLetterOrDigit c = true) :
    words word = [word] := by
  rw [words, splitWhere_of_forall fun c hc => by simp [h c hc]]
  simp [hne]

/-! ## Slugs -/

namespace IsSlug

theorem ne_nil (h : IsSlug s) : s ≠ [] := by
  cases h with
  | word hne _ => exact hne
  | hyphen _ _ _ => simp

theorem of_mem (h : IsSlug s) (hc : c ∈ s) : isSlugChar c = true ∨ c = '-' := by
  induction h with
  | word _ hword => exact Or.inl (hword c hc)
  | hyphen _ hword _ ih =>
    rcases List.mem_append.mp hc with hc | hc
    · exact Or.inl (hword c hc)
    · exact (List.mem_cons.mp hc).elim Or.inr ih

/-- A slug starts with a letter or a digit, and so does its first word. -/
theorem exists_words_eq (h : IsSlug s) : ∃ c first rest, s.head? = some c ∧
    isSlugChar c = true ∧ words s = (c :: first) :: rest := by
  have hfirst : ∀ {word : List Char}, word ≠ [] → (∀ c ∈ word, isSlugChar c = true) →
      ∃ c first, word = c :: first ∧ isSlugChar c = true ∧ words word = [c :: first] := by
    intro word hne hword
    obtain ⟨c, first, rfl⟩ := List.exists_cons_of_ne_nil hne
    exact ⟨c, first, rfl, hword c List.mem_cons_self,
      words_of_forall hne fun d hd => isLetterOrDigit_of_isSlugChar (hword d hd)⟩
  cases h with
  | word hne hword =>
    obtain ⟨c, first, rfl, hc, hwords⟩ := hfirst hne hword
    exact ⟨c, first, [], rfl, hc, hwords⟩
  | @hyphen _ rest hne hword _ =>
    obtain ⟨c, first, rfl, hc, hwords⟩ := hfirst hne hword
    exact ⟨c, first, words rest, rfl, hc, by rw [words_append_cons (by decide), hwords]; rfl⟩

end IsSlug

theorem isSlug_join {pieces : List (List Char)} (hne : pieces ≠ [])
    (h : ∀ piece ∈ pieces, piece ≠ [] ∧ ∀ c ∈ piece, isSlugChar c = true) :
    IsSlug (join ['-'] pieces) := by
  induction pieces with
  | nil => exact absurd rfl hne
  | cons piece pieces ih =>
    obtain ⟨hpiece, hchars⟩ := h piece List.mem_cons_self
    cases pieces with
    | nil => exact .word hpiece hchars
    | cons next pieces =>
      rw [join_cons_of_ne_nil (List.cons_ne_nil next pieces), List.append_assoc,
        List.singleton_append]
      exact .hyphen hpiece hchars
        (ih (List.cons_ne_nil _ _) fun p hp => h p (List.mem_cons_of_mem _ hp))

/-- A text becomes a slug, unless nothing is left of it. -/
theorem isSlug_slugify (h : slugify text ≠ "") : IsSlug (slugify text).toList := by
  rw [slugify, String.toList_ofList]
  refine isSlug_join (fun hnil => h ?_) fun piece hpiece => ?_
  · rw [slugify, hnil]
    rfl
  · obtain ⟨word, hword, rfl⟩ := List.mem_map.mp hpiece
    obtain ⟨hne, hchars⟩ := of_mem_words hword
    refine ⟨by simpa using hne, fun c hc => ?_⟩
    obtain ⟨d, hd, rfl⟩ := List.mem_map.mp hc
    exact isSlugChar_toLower (hchars d hd)

/-- A slug stays as it is. -/
theorem slugify_of_isSlug (h : IsSlug slug.toList) : slugify slug = slug := by
  rw [← String.toList_inj, slugify, String.toList_ofList]
  have hlower : ∀ {word : List Char}, word ≠ [] → (∀ c ∈ word, isSlugChar c = true) →
      (words word).map (fun word => word.map Char.toLower) = [word] := by
    intro word hne hword
    rw [words_of_forall hne fun c hc => isLetterOrDigit_of_isSlugChar (hword c hc), List.map_singleton,
      List.map_congr_left fun c hc => toLower_of_isSlugChar (hword c hc), List.map_id']
  generalize slug.toList = s at h
  induction h with
  | word hne hword => rw [hlower hne hword, join]
  | @hyphen word rest hne hword hrest ih =>
    have hwords : (words rest).map (fun word => word.map Char.toLower) ≠ [] := by
      intro hnil
      rw [hnil] at ih
      exact hrest.ne_nil ih.symm
    rw [words_append_cons (by decide), List.map_append, hlower hne hword, List.singleton_append,
      join_cons_of_ne_nil hwords, ih, List.append_assoc, List.singleton_append]

/-! ## Namespaces -/

theorem toList_pascalCase (text : String) : (pascalCase text).toList =
    (words text.toList).flatMap fun word => (capitalize (String.ofList word)).toList := by
  rw [pascalCase, String.toList_join, List.flatMap_map]

theorem toList_capitalize (c : Char) (word : List Char) :
    (capitalize (String.ofList (c :: word))).toList = c.toUpper :: word := by
  simp [capitalize]

theorem isLetterOrDigit_of_mem_pascalCase (h : c ∈ (pascalCase text).toList) :
    isLetterOrDigit c = true := by
  rw [toList_pascalCase] at h
  obtain ⟨word, hword, hc⟩ := List.mem_flatMap.mp h
  obtain ⟨hne, hchars⟩ := of_mem_words hword
  obtain ⟨d, word, rfl⟩ := List.exists_cons_of_ne_nil hne
  rw [toList_capitalize] at hc
  rcases List.mem_cons.mp hc with rfl | hc
  · exact isLetterOrDigit_toUpper (hchars d List.mem_cons_self)
  · exact hchars c (List.mem_cons_of_mem _ hc)

/-- The words of a slug make a namespace if the first of them starts with a letter. -/
theorem isNamespace_pascalCase (h : IsSlug slug.toList) :
    isNamespace (pascalCase slug) = true ↔ ∃ c, slug.toList.head? = some c ∧ isLetter c = true := by
  have hchars : ∀ c ∈ (pascalCase slug).toList, isLetterOrDigit c = true :=
    fun c => isLetterOrDigit_of_mem_pascalCase
  have hnone : '\\' ∉ (pascalCase slug).toList := fun hmem => absurd (hchars _ hmem) (by decide)
  obtain ⟨c, first, rest, hhead, hc, hwords⟩ := h.exists_words_eq
  have hstart := isIdentifierStart_toUpper (isLetterOrDigit_of_isSlugChar hc)
  rw [isNamespace, splitOn_of_notMem hnone, hhead]
  rw [toList_pascalCase, hwords, List.flatMap_cons, toList_capitalize, List.cons_append] at hchars ⊢
  have hparts : ∀ d ∈ first ++ rest.flatMap fun word => (capitalize (String.ofList word)).toList,
      Php.isIdentifierPart d = true := by
    intro d hd
    rw [Php.isIdentifierPart, hchars d (List.mem_cons_of_mem _ hd), Bool.true_or]
  simp [Php.isIdentifier, hstart, List.all_eq_true.mpr hparts]

namespace StartOptions

variable {options : StartOptions}

theorem isSlug_of_resolvedSlug (h : options.resolvedSlug = .ok slug) : IsSlug slug.toList := by
  rw [resolvedSlug] at h
  split_ifs at h with hempty
  obtain rfl := Except.ok.inj h
  exact isSlug_slugify (by simpa using hempty)

/-- A slug is a name under which there can be a directory. -/
theorem isName_of_resolvedSlug (h : options.resolvedSlug = .ok slug) :
    IsName slug ∧ slug ≠ ".." := by
  have hslug := isSlug_of_resolvedSlug h
  have hdot : '.' ∉ slug.toList := fun hmem => (hslug.of_mem hmem).elim (by decide) (by decide)
  have hne : ∀ dots : String, '.' ∈ dots.toList → slug ≠ dots := by
    rintro dots hdots rfl
    exact hdot hdots
  refine ⟨⟨fun hmem => (hslug.of_mem hmem).elim (by decide) (by decide), ?_⟩, hne ".." (by decide)⟩
  rw [Path.isInert, Bool.or_eq_false_iff, beq_eq_false_iff_ne, beq_eq_false_iff_ne]
  exact ⟨mt String.toList_eq_nil_iff.mpr hslug.ne_nil, hne "." (by decide)⟩

/-- Without a namespace among the options, there is one if the slug starts with a letter. -/
theorem resolvedNamespace_of_none (h : options.nameSpace = none) (hslug : IsSlug slug.toList) :
    (∃ nameSpace, options.resolvedNamespace slug = .ok nameSpace) ↔
      ∃ c, slug.toList.head? = some c ∧ isLetter c = true := by
  rw [← isNamespace_pascalCase hslug, resolvedNamespace, h]
  dsimp only
  split_ifs with hname
  · exact iff_of_true ⟨_, rfl⟩ hname
  · exact iff_of_false nofun hname

end StartOptions

end PluginWorkshop
