import PluginWorkshop.Proofs.Json.Members
import PluginWorkshop.Proofs.Json.Reading
import PluginWorkshop.Proofs.Text.Splitting
import PluginWorkshop.Text.Blank

namespace PluginWorkshop.Json

open Text

/-! ## Values that a text can write -/

/-- A value that some text writes, with lists and objects nested `depth` deep at most. -/
def Readable : Nat → Json → Prop
  | _, null | _, bool _ | _, string _ => True
  | _, number text => IsNumber text.toList text.toList
  | 0, array _ | 0, object _ => False
  | depth + 1, array items => ∀ item ∈ items, Readable depth item
  | depth + 1, object members =>
    (Members.keys members).Nodup ∧ ∀ m ∈ members, Readable depth m.2

theorem exists_takes_of_itemsText {bracket : Bracket} {item : Reader α} {text : List Char}
    {as : List α} (h : ItemsText bracket item text as) :
    ∀ a ∈ as, ∃ t, Takes item t a := by
  induction h with
  | last ht => simpa using ⟨_, ht⟩
  | more ht _ _ _ _ ih => simpa using ⟨⟨_, ht⟩, ih⟩

theorem exists_takes_of_sequenceText {bracket : Bracket} {item : Reader α} {text : List Char}
    {as : List α} (h : SequenceText bracket item text as) :
    ∀ a ∈ as, ∃ t, Takes item t a := by
  cases h with
  | empty => simp
  | items _ _ h => exact exists_takes_of_itemsText h

theorem readable_scalar {depth : Nat} {raw text : List Char} (h : IsNumber raw text) :
    Readable depth (number (String.ofList text)) := by
  cases depth <;> simpa [Readable] using h.kept

/-- What is read as a value is one that a text can write. -/
theorem readable_of_value : ∀ {depth : Nat} {s : List Char} {v : Json} {rest : List Char},
    value depth s = .ok (v, rest) → Readable depth v := by
  intro depth
  induction depth with
  | zero =>
    intro s v rest h
    rw [value_zero] at h
    obtain ⟨t, ht, -⟩ := of_valueWith isLocal_stringText (by simp) h
    cases ht with
    | null | bool | string => trivial
    | number hn => exact readable_scalar hn
    | array hnone | object hnone => cases hnone
  | succ depth ih =>
    intro s v rest h
    rw [value_succ] at h
    obtain ⟨t, ht, -⟩ := of_valueWith isLocal_stringText
      (by rintro item ⟨⟩; exact ⟨isLocal_value depth, value_nil depth⟩) h
    cases ht with
    | null | bool | string => trivial
    | number hn => exact readable_scalar hn
    | array hitem hs =>
      cases hitem
      intro item hmem
      obtain ⟨t, ht⟩ := exists_takes_of_sequenceText hs item hmem
      exact ih ht.ends_nil
    | object hitem hs =>
      cases hitem
      refine ⟨Members.nodup_ofList _, fun m hm => ?_⟩
      obtain ⟨t, ht⟩ := exists_takes_of_sequenceText hs m (Members.mem_of_mem_ofList hm)
      obtain ⟨t', ht', -⟩ := of_member isLocal_stringText (fun _ => isLocal_value depth)
        (fun _ => value_nil depth) ht.ends_nil
      cases ht' with
      | mk _ _ _ _ hv => exact ih hv.ends_nil

/-! ## Printed values -/

attribute [local simp] prettyChars prettyItems prettyMembers

theorem prettyItems_eq (margin unit : List Char) (items : List Json) :
    prettyItems margin unit items = items.map (prettyChars margin unit) := by
  induction items with
  | nil => rfl
  | cons item items ih => simp [ih]

theorem prettyMembers_eq (margin unit : List Char) (members : List (String × Json)) :
    prettyMembers margin unit members = members.map fun m =>
      quote m.1 ++ ':' :: ' ' :: prettyChars margin unit m.2 := by
  induction members with
  | nil => rfl
  | cons m members ih => simp [ih]

section

variable (sep : List Char)

theorem replaceChar_commaSeparated (items : List (List Char)) :
    replaceChar '\n' sep (commaSeparated items) =
      commaSeparated (items.map (replaceChar '\n' sep)) := by
  match items with
  | [] => rfl
  | [item] => rfl
  | item :: next :: items =>
    have ih := replaceChar_commaSeparated (next :: items)
    rw [List.map_cons] at ih
    rw [commaSeparated, replaceChar_append, replaceChar_cons_ne sep (by decide), ih]
    rfl

end

/-- Space, and then text that a reader of items takes. -/
def IsPart (bracket : Bracket) (item : Reader α) (text : List Char) (a : α) : Prop :=
  ∃ gap core, text = gap ++ core ∧ IsGap gap ∧ Starts bracket.close core ∧ Takes item core a

theorem itemsText_commaSeparated {bracket : Bracket} {item : Reader β} {f : α → List Char}
    {g : α → β} {ending : List Char} (hending : IsGap ending) :
    ∀ (a : α) (as : List α), (∀ x ∈ a :: as, IsPart bracket item (f x) (g x)) →
      ∃ gap tail, commaSeparated ((a :: as).map f) ++ ending ++ [bracket.close] = gap ++ tail ∧
        IsGap gap ∧ Starts bracket.close tail ∧ ItemsText bracket item tail ((a :: as).map g)
  | a, [], h => by
    obtain ⟨gap, core, hf, hgap, ⟨c, tail, rfl, hstart⟩, htakes⟩ := h a (by simp)
    exact ⟨gap, (c :: tail) ++ ending ++ [bracket.close], by simp [commaSeparated, hf], hgap,
      ⟨c, tail ++ ending ++ [bracket.close], by simp, hstart⟩, .last htakes hending⟩
  | a, b :: as, h => by
    obtain ⟨gap, core, hf, hgap, ⟨c, tail, rfl, hstart⟩, htakes⟩ := h a (by simp)
    obtain ⟨gap', tail', heq, hgap', hstart', hitems⟩ :=
      itemsText_commaSeparated hending b as fun x hx => h x (List.mem_cons_of_mem _ hx)
    refine ⟨gap, (c :: tail) ++ [] ++ ',' :: gap' ++ tail', ?_, hgap,
      ⟨c, tail ++ ',' :: gap' ++ tail', by simp, hstart⟩, .more htakes isGap_nil hgap' hstart' hitems⟩
    simp only [List.map_cons] at heq ⊢
    simp [commaSeparated, hf, ← heq]

/-- Parts with commas between them are read as a sequence. -/
theorem sequenceText_commaSeparated {bracket : Bracket} {item : Reader β} {f : α → List Char}
    {g : α → β} {ending : List Char} (hending : IsGap ending) {as : List α}
    (h : ∀ x ∈ as, IsPart bracket item (f x) (g x)) :
    SequenceText bracket item (commaSeparated (as.map f) ++ ending ++ [bracket.close]) (as.map g) := by
  cases as with
  | nil => exact .empty hending
  | cons a as =>
    obtain ⟨gap, tail, heq, hgap, hstart, hitems⟩ := itemsText_commaSeparated hending a as h
    rw [heq]
    exact .items hgap hstart hitems

theorem takes_stringText (s : String) : Takes stringText (escape s.toList ++ ['"']) s := by
  intro rest _
  simp [stringText, stringBody_escape, Except.map]

/-- Without characters below the space. -/
def IsPlain (s : List Char) : Prop := ∀ c ∈ s, 0x20 ≤ c.toNat

theorem IsPlain.newline_notMem {s : List Char} (h : IsPlain s) : '\n' ∉ s := fun hm =>
  absurd (h _ hm) (by decide)

theorem IsPlain.return_notMem {s : List Char} (h : IsPlain s) : '\r' ∉ s := fun hm =>
  absurd (h _ hm) (by decide)

@[simp] theorem isPlain_nil : IsPlain [] := by simp [IsPlain]

@[simp] theorem isPlain_cons {c : Char} {s : List Char} :
    IsPlain (c :: s) ↔ 0x20 ≤ c.toNat ∧ IsPlain s := by
  simp [IsPlain]

@[simp] theorem isPlain_append {a b : List Char} : IsPlain (a ++ b) ↔ IsPlain a ∧ IsPlain b := by
  simp [IsPlain, or_imp, forall_and]

theorem le_toNat_hexDigit : ∀ n < 16, 0x20 ≤ (hexDigit n).toNat := by decide

theorem isPlain_escapeChar (c : Char) : IsPlain (escapeChar c) := by
  unfold escapeChar
  split_ifs with hq hb hc
  case pos | pos | pos | pos | pos | pos | pos => all_goals simp
  · simp [le_toNat_hexDigit (c.toNat / 16) (by omega), le_toNat_hexDigit (c.toNat % 16) (by omega)]
  · simpa using hc

theorem isPlain_quote (s : String) : IsPlain (quote s) := by
  simp only [quote, escape, List.cons_append, isPlain_cons, isPlain_append, isPlain_nil, and_true]
  refine ⟨by decide, fun c hc => ?_, by decide⟩
  obtain ⟨d, -, hc⟩ := List.mem_flatMap.mp hc
  exact isPlain_escapeChar d c hc

/-- A key in quotes, a colon, a space and a value are read as a member. -/
theorem memberText_quote (item : String → Reader α) (key : String) {close : Char}
    {text : List Char} {a : α} (hstart : Starts close text) (h : Takes (item key) text a) :
    MemberText stringText item (quote key ++ ':' :: ' ' :: text) (key, a) := by
  obtain ⟨c, tail, rfl, hc, -⟩ := hstart
  have hne : c ≠ ' ' := by rintro rfl; simp [isSpace] at hc
  have := MemberText.mk (takes_stringText key) isGap_nil (show IsGap [' '] by simp [IsGap, isSpace])
    ⟨c, tail, rfl, hc, hne⟩ h
  simpa [quote] using this

theorem IsDigits.isPlain {s : List Char} (h : IsDigits s) : IsPlain s := by
  intro c hc
  have := h.2 c hc
  simp only [isDigit, Bool.and_eq_true, decide_eq_true_eq] at this
  exact le_trans (by decide) (Char.le_def.mp this.1)

theorem IsUnsigned.isPlain {raw text : List Char} (h : IsUnsigned raw text) : IsPlain raw := by
  obtain ⟨i, f, rx, x, hi, hf, hx, rfl, -⟩ := h
  have hi' : IsPlain i := by
    rcases hi with rfl | ⟨hi, -⟩
    · simp
    · exact hi.isPlain
  have hf' : IsPlain f := by
    rcases hf with rfl | ⟨ds, hds, rfl⟩
    · simp
    · simp [hds.isPlain]
  have hx' : IsPlain rx := by
    cases hx with
    | none => simp
    | plain he hds => rcases he with rfl | rfl <;> simp [hds.isPlain]
    | signed he hsign hds =>
      rcases he with rfl | rfl <;> rcases hsign with rfl | rfl <;> simp [hds.isPlain]
  simp [hi', hf', hx']

theorem IsNumber.isPlain {raw text : List Char} (h : IsNumber raw text) : IsPlain raw := by
  cases h with
  | plain h => exact h.isPlain
  | negative h => simp [h.isPlain]

/-- Spaces and tabs only. -/
def IsIndent (s : List Char) : Prop := ∀ c ∈ s, isSpaceOrTab c = true

theorem IsIndent.append {a b : List Char} (ha : IsIndent a) (hb : IsIndent b) :
    IsIndent (a ++ b) := by
  intro c hc
  rcases List.mem_append.mp hc with hc | hc
  · exact ha c hc
  · exact hb c hc

theorem IsIndent.isGap {s : List Char} (h : IsIndent s) : IsGap s := by
  intro c hc
  have := h c hc
  simp only [isSpaceOrTab, Bool.or_eq_true, beq_iff_eq] at this
  rcases this with rfl | rfl <;> rfl

theorem IsIndent.newline_notMem {s : List Char} (h : IsIndent s) : '\n' ∉ s := fun hm => by
  simpa [isSpaceOrTab] using h _ hm

theorem IsIndent.return_notMem {s : List Char} (h : IsIndent s) : '\r' ∉ s := fun hm => by
  simpa [isSpaceOrTab] using h _ hm

theorem Starts.of_head {close c : Char} {tail : List Char} (hc : isSpace c = false)
    (hne : c ≠ close) : Starts close (c :: tail) :=
  ⟨c, tail, rfl, hc, hne⟩

theorem replaceChar_line {sep margin : List Char} (hmargin : IsIndent margin) (text : List Char) :
    replaceChar '\n' sep ('\n' :: margin ++ text) = sep ++ margin ++ replaceChar '\n' sep text := by
  rw [List.cons_append, ← List.singleton_append, replaceChar_append, replaceChar_append,
    replaceChar_of_notMem sep hmargin.newline_notMem]
  simp [replaceChar]

/-- A block is read as a sequence of what its items are read as. -/
theorem exists_sequenceText_block {bracket : Bracket} (hb : bracket.Valid) {item : Reader β}
    {sep margin unit : List Char} (hsep : IsGap sep) (hmargin : IsIndent margin)
    (hunit : IsIndent unit) {opening : Char} (hopening : opening ≠ '\n') {print : α → List Char}
    {g : α → β} {as : List α} (h : ∀ a ∈ as, Starts bracket.close (replaceChar '\n' sep (print a)) ∧
      Takes item (replaceChar '\n' sep (print a)) (g a)) :
    ∃ body, replaceChar '\n' sep (block margin unit opening bracket.close (as.map print)) =
      opening :: body ∧ SequenceText bracket item body (as.map g) := by
  have hclose : replaceChar '\n' sep [bracket.close] = [bracket.close] := by
    rcases hb with rfl | rfl <;> rfl
  cases as with
  | nil =>
    refine ⟨[bracket.close], ?_, .empty isGap_nil⟩
    rw [List.map_nil, block, replaceChar_cons_ne sep hopening, hclose]
  | cons a as =>
    have hending : IsGap (replaceChar '\n' sep ('\n' :: margin)) := by
      rw [← List.append_nil ('\n' :: margin), replaceChar_line hmargin]
      simpa [replaceChar] using hsep.append hmargin.isGap
    refine ⟨_, ?_, sequenceText_commaSeparated
      (f := fun a => replaceChar '\n' sep ('\n' :: margin ++ unit ++ print a)) hending fun x hx => 
        ⟨sep ++ (margin ++ unit), replaceChar '\n' sep (print x), ?_, 
          hsep.append (hmargin.append hunit).isGap, (h x hx).1, (h x hx).2⟩⟩
    · rw [List.map_cons, block, List.append_assoc, List.cons_append, replaceChar_cons_ne sep hopening,
        replaceChar_append, List.cons_append, ← List.cons_append, replaceChar_append, hclose,
        replaceChar_commaSeparated, ← List.map_cons, List.map_map, List.map_map]
      · simp [Function.comp_def]
      · simp
    · rw [List.append_assoc, List.cons_append, ← List.append_assoc, ← List.cons_append,
        replaceChar_line (hmargin.append hunit)]

theorem head_block (margin unit : List Char) (opening closing : Char) (items : List (List Char)) :
    ∃ tail, block margin unit opening closing items = opening :: tail := by
  cases items with
  | nil => exact ⟨_, rfl⟩
  | cons item items => exact ⟨_, rfl⟩

/-- A printed value starts with no space and with no closing bracket. -/
theorem starts_prettyChars {sep margin unit : List Char} {bracket : Bracket} (hb : bracket.Valid) :
    ∀ {depth : Nat} {v : Json}, Readable depth v →
      Starts bracket.close (replaceChar '\n' sep (prettyChars margin unit v))
  | _, .null, _ => by rcases hb with rfl | rfl <;> exact .of_head rfl (by decide)
  | _, .bool true, _ => by rcases hb with rfl | rfl <;> exact .of_head rfl (by decide)
  | _, .bool false, _ => by rcases hb with rfl | rfl <;> exact .of_head rfl (by decide)
  | _, .string s, _ => by
    rw [prettyChars, replaceChar_of_notMem sep (isPlain_quote s).newline_notMem]
    rcases hb with rfl | rfl <;> exact .of_head rfl (by decide)
  | depth, .number text, h => by
    have hn : IsNumber text.toList text.toList := by cases depth <;> exact h
    rw [prettyChars, replaceChar_of_notMem sep hn.isPlain.newline_notMem]
    obtain ⟨c, tail, heq, hc⟩ := hn.exists_cons
    rw [heq]
    refine .of_head (isSpace_of_digit hc) ?_
    rintro rfl
    rcases hb with rfl | rfl <;> simp [Bracket.list, Bracket.object, isDigit] at hc
  | _, .array items, _ => by
    obtain ⟨tail, heq⟩ := head_block margin unit '[' ']' (prettyItems (margin ++ unit) unit items)
    rw [prettyChars, heq, replaceChar_cons_ne sep (by decide)]
    rcases hb with rfl | rfl <;> exact .of_head rfl (by decide)
  | _, .object members, _ => by
    obtain ⟨tail, heq⟩ := head_block margin unit '\x7b' '\x7d'
      (prettyMembers (margin ++ unit) unit members)
    rw [prettyChars, heq, replaceChar_cons_ne sep (by decide)]
    rcases hb with rfl | rfl <;> exact .of_head rfl (by decide)

theorem valueText_scalar {sep margin unit : List Char} {nested : Option (Reader Json)} {depth : Nat}
    {v : Json} (hv : Readable depth v) (harray : ∀ items, v ≠ .array items)
    (hobject : ∀ members, v ≠ .object members) :
    ValueText stringText nested (replaceChar '\n' sep (prettyChars margin unit v)) v := by
  cases v with
  | null => exact .null
  | bool b => cases b with
    | false => exact .bool false
    | true => exact .bool true
  | string s =>
    rw [prettyChars, replaceChar_of_notMem sep (isPlain_quote s).newline_notMem]
    exact .string (takes_stringText s)
  | number text =>
    have hn : IsNumber text.toList text.toList := by cases depth <;> exact hv
    rw [prettyChars, replaceChar_of_notMem sep hn.isPlain.newline_notMem]
    simpa using ValueText.number hn
  | array items => exact absurd rfl (harray items)
  | object members => exact absurd rfl (hobject members)

/-- A value printed on several lines, with every line feed replaced by other space, is read as
itself. -/
theorem takes_prettyChars {sep unit : List Char} (hsep : IsGap sep) (hunit : IsIndent unit) :
    ∀ {depth : Nat} {v : Json} {margin : List Char}, IsIndent margin → Readable depth v →
      Takes (value depth) (replaceChar '\n' sep (prettyChars margin unit v)) v := by
  intro depth
  induction depth with
  | zero =>
    intro v margin hmargin hv
    rw [value_zero]
    exact (valueText_scalar hv (by rintro _ rfl; exact hv) (by rintro _ rfl; exact hv)).takes
  | succ depth ih =>
    intro v margin hmargin hv
    rw [value_succ]
    cases v with
    | array items =>
      obtain ⟨body, heq, hbody⟩ := exists_sequenceText_block (Or.inl rfl) hsep hmargin hunit
        (show '[' ≠ '\n' by decide) (g := id) fun x hx =>
          ⟨starts_prettyChars (Or.inl rfl) (hv x hx), ih (hmargin.append hunit) (hv x hx)⟩
      rw [prettyChars, prettyItems_eq]
      rw [List.map_id] at hbody
      exact heq ▸ (ValueText.array rfl hbody).takes
    | object members =>
      have hmember : ∀ m ∈ members,
          replaceChar '\n' sep
            (quote m.1 ++ ':' :: ' ' :: prettyChars (margin ++ unit) unit m.2) =
          quote m.1 ++ ':' :: ' ' ::
            replaceChar '\n' sep (prettyChars (margin ++ unit) unit m.2) := by
        intro m _
        rw [replaceChar_append, replaceChar_of_notMem sep (isPlain_quote m.1).newline_notMem,
          replaceChar_cons_ne sep (by decide), replaceChar_cons_ne sep (by decide)]
      obtain ⟨body, heq, hbody⟩ := exists_sequenceText_block (Or.inr rfl) hsep hmargin hunit
        (show '\x7b' ≠ '\n' by decide) (g := id) fun m hm => by
          rw [hmember m hm]
          exact ⟨.of_head rfl (by decide), (memberText_quote (fun _ => value depth) m.1
            (starts_prettyChars (Or.inr rfl) (hv.2 m hm))
            (ih (hmargin.append hunit) (hv.2 m hm))).takes⟩
      rw [List.map_id] at hbody
      have := (ValueText.object rfl hbody).takes
      rw [Members.ofList_of_nodup hv.1] at this
      rw [prettyChars, prettyMembers_eq]
      exact heq ▸ this
    | _ => exact (valueText_scalar hv (by simp) (by simp)).takes

end PluginWorkshop.Json
