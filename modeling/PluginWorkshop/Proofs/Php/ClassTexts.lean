import PluginWorkshop.Proofs.Php.Wiring

/-!
# The texts of a class in a comment

The declaration of a property holds no character that a string or a comment ends with, and the
statement that fills it ends no comment unless its slug, its name or its text domain does
(`Wiring.classTexts`). So wherever the two texts are put, nothing is read anew behind them.
-/

namespace PluginWorkshop.Php

open Text Quoted

/-- The text ends a comment. -/
def EndsComment (text : Line) : Prop := ['*', '/'] <:+: text

instance : DecidablePred EndsComment := fun text => inferInstanceAs (Decidable (_ <:+: text))

theorem endsComment_append_iff {a : Line} (ha : '*' ∉ a) (s : Line) :
    EndsComment (a ++ s) ↔ EndsComment s := by
  rw [EndsComment, EndsComment, ← containsText_iff, ← containsText_iff, containsText, containsText,
    suffixFrom?_append_of_notMem ha]

/-- Between quotes a text ends a comment if it does by itself. -/
theorem endsComment_encode_append {text : List Char} (htext : ¬ EndsComment text) (s : Line) :
    EndsComment (encode text ++ '\'' :: s) ↔ EndsComment s := by
  induction text with
  | nil => exact endsComment_append_iff (a := ['\'']) (by decide) s
  | cons c text ih =>
    rw [EndsComment, List.infix_cons_iff, not_or] at htext
    have ih := ih htext.2
    rw [encode]
    split_ifs with hc
    · have hstar : '*' ∉ ['\\', c] := by
        rcases hc with rfl | rfl <;> decide
      rw [← ih]
      exact endsComment_append_iff hstar _
    · rw [← ih, List.cons_append, EndsComment, List.infix_cons_iff, EndsComment]
      refine or_iff_right fun hprefix => htext.1 ?_
      obtain ⟨rfl, hslash⟩ := List.cons_prefix_cons.mp hprefix
      -- The quote and the backslash that stand for an escape are no slash.
      cases text with
      | nil => simp [encode] at hslash
      | cons d text =>
        rw [encode] at hslash
        split_ifs at hslash
        · simp at hslash
        · obtain rfl : '/' = d := (List.cons_prefix_cons.mp hslash).1
          exact ⟨text, rfl⟩

theorem endsComment_quote_append {text : String} (htext : ¬ EndsComment text.toList) (s : Line) :
    EndsComment ((quote text).toList ++ s) ↔ EndsComment s := by
  have hquote : (quote text).toList ++ s = ['\''] ++ (encode text.toList ++ '\'' :: s) := by
    simp [quote]
  rw [hquote, endsComment_append_iff (by decide), endsComment_encode_append htext]

/-- The texts that wire a class, which can be put behind any indentation and into any text. -/
structure ClassTexts (property statement : Line) : Prop where
  property_wirable : Wirable property
  statement_wirable : Wirable statement
  property_eq : ∃ variableName, isIdentifier variableName = true ∧
    property = "public $".toList ++ variableName ++ ";".toList
  statement_eq : ∃ rest, statement = "$this->".toList ++ rest
  not_endsComment : ¬ EndsComment statement

namespace Wiring

variable (w : Wiring)

/-- The slug, the name and the text domain of the class end no comment. -/
structure EndsNoComment : Prop where
  slug : ∀ slug ∈ w.spec.slug, ¬ EndsComment slug.toList
  singularName : ∀ name ∈ w.spec.singularName, ¬ EndsComment name.toList
  textDomain : ¬ EndsComment w.textDomain.toList

variable {w}

theorem not_endsComment_getD {text : Option String} (h : ∀ t ∈ text, ¬ EndsComment t.toList) :
    ¬ EndsComment (text.getD "").toList := by
  cases text with
  | none => rintro ⟨a, b, h⟩; simp at h
  | some t => exact h t rfl

theorem endsComment_registration_append (h : w.EndsNoComment) (s : Line) :
    EndsComment (((w.spec.place w.mapping).registration w.textDomain).toList ++ s) ↔
      EndsComment s := by
  have hslug : ¬ EndsComment ((w.spec.place w.mapping).spec.slug.getD "").toList :=
    not_endsComment_getD h.slug
  have hname : ¬ EndsComment ((w.spec.place w.mapping).spec.singularName.getD "").toList :=
    not_endsComment_getD h.singularName
  simp only [PlacedClass.registration, String.toList_append, List.append_assoc]
  rw [endsComment_quote_append hslug, endsComment_append_iff (by decide),
    endsComment_quote_append hname, endsComment_append_iff (by decide),
    endsComment_quote_append h.textDomain, endsComment_append_iff (by decide)]

/-- The statement in pieces, of which the arguments alone may hold a star. -/
theorem exists_statement_eq (w : Wiring) : ∃ target arguments tail : Line,
    '*' ∉ target ∧ '*' ∉ tail ∧
      (arguments = [] ∨ arguments = ((w.spec.place w.mapping).registration w.textDomain).toList) ∧
      w.statement.toList = "$this->".toList ++ (target ++ (arguments ++ tail)) := by
  have hnamed := PlacedClass.named_of_ofRequest w.accepted w.rootNamespace_chars
  have hstar : ∀ {s : List Char}, (∀ c ∈ s, isNameChar c = true) → '*' ∉ s :=
    fun h hmem => absurd (h _ hmem) (by decide)
  have htarget : '*' ∉ w.spec.property.toList ++ " = new \\".toList ++
      (w.spec.place w.mapping).qualifiedName.toList ++ "(".toList := by
    simp only [List.mem_append, not_or]
    exact ⟨⟨⟨hstar hnamed.property, by decide⟩, hstar hnamed.qualifiedName⟩, by decide⟩
  have hinstantiated := w.instantiated
  cases hkind : (w.spec.place w.mapping).spec.kind with
  | model =>
    simp only [PlacedClass.instantiation, hkind, Option.some.injEq] at hinstantiated
    refine ⟨_, [], "$this->plugin);".toList, htarget, by decide, Or.inl rfl, ?_⟩
    simp only [← hinstantiated, String.toList_append, List.append_assoc]
    rfl
  | postType =>
    simp only [PlacedClass.instantiation, hkind, Option.some.injEq] at hinstantiated
    refine ⟨_, _, ", array(), $this->plugin);".toList, htarget, by decide, Or.inr rfl, ?_⟩
    simp only [← hinstantiated, String.toList_append, List.append_assoc]
    rfl
  | taxonomy =>
    simp only [PlacedClass.instantiation, hkind, Option.some.injEq] at hinstantiated
    refine ⟨_, _, ", array('post'), array(), $this->plugin);".toList, htarget, by decide,
      Or.inr rfl, ?_⟩
    simp only [← hinstantiated, String.toList_append, List.append_assoc]
    rfl
  | integrationStub => simp [PlacedClass.instantiation, hkind] at hinstantiated

theorem classTexts (w : Wiring) (h : w.EndsNoComment) :
    ClassTexts w.declaration.toList w.statement.toList where
  property_wirable := w.wirable_declaration
  statement_wirable := w.wirable_statement
  property_eq := by
    refine ⟨w.spec.property.toList, (ClassSpec.isIdentifier_of_ofRequest w.accepted).1, ?_⟩
    rw [declaration, PlacedClass.propertyDeclaration, String.toList_append, String.toList_append]
    rfl
  statement_eq := by
    obtain ⟨target, arguments, tail, -, -, -, hstatement⟩ := w.exists_statement_eq
    exact ⟨_, hstatement⟩
  not_endsComment := by
    obtain ⟨target, arguments, tail, htarget, htail, harguments, hstatement⟩ :=
      w.exists_statement_eq
    have hend : ¬ EndsComment tail := fun hend => htail (hend.subset (by decide))
    rw [hstatement, endsComment_append_iff (by decide), endsComment_append_iff htarget]
    rcases harguments with hnone | hregistration
    · rwa [hnone, List.nil_append]
    · rwa [hregistration, endsComment_registration_append h]

end Wiring

end PluginWorkshop.Php
