import PluginWorkshop.Proofs.Json.Printing

namespace PluginWorkshop.Json

open Text

theorem Takes.withSource {read : Reader α} {text : List Char} {a : α} (h : Takes read text a) :
    Takes (withSource read) text (a, text) := by
  intro rest hrest
  simp [Json.withSource, h rest hrest, bind, Except.bind, pure, Except.pure]

section

variable {bracket : Bracket} {item : Reader α} {item' : Reader β} {f : β → α}
  {p : List Char → β → Prop} (hitem : ∀ {part a}, Takes item part a →
    ∃ b, f b = a ∧ p part b ∧ Takes item' part b)
include hitem

/-- A reader that takes the same texts as another reads the same sequences, item by item from the
same parts of the text. -/
theorem ItemsText.transfer {text : List Char} {as : List α} (h : ItemsText bracket item text as) :
    ∃ bs, bs.map f = as ∧ (∀ b ∈ bs, ∃ part, part <:+: text ∧ p part b) ∧
      ItemsText bracket item' text bs := by
  induction h with
  | @last part gap a ht hgap =>
    obtain ⟨b, rfl, hp, ht'⟩ := hitem ht
    refine ⟨[b], rfl, ?_, .last ht' hgap⟩
    simpa using ⟨part, ⟨[], gap ++ [bracket.close], by simp⟩, hp⟩
  | @more part gap gap' tail a as ht hgap hgap' hstart _ ih =>
    obtain ⟨b, rfl, hp, ht'⟩ := hitem ht
    obtain ⟨bs, rfl, hps, hbs⟩ := ih
    refine ⟨b :: bs, rfl, ?_, .more ht' hgap hgap' hstart hbs⟩
    intro x hx
    rcases List.mem_cons.mp hx with rfl | hx
    · exact ⟨part, ⟨[], gap ++ ',' :: gap' ++ tail, by simp⟩, hp⟩
    · obtain ⟨part', hpart, hp'⟩ := hps x hx
      exact ⟨part', hpart.trans ⟨part ++ gap ++ ',' :: gap', [], by simp⟩, hp'⟩

theorem SequenceText.transfer {text : List Char} {as : List α}
    (h : SequenceText bracket item text as) :
    ∃ bs, bs.map f = as ∧ (∀ b ∈ bs, ∃ part, part <:+: text ∧ p part b) ∧
      SequenceText bracket item' text bs := by
  cases h with
  | empty hgap => exact ⟨[], rfl, by simp, .empty hgap⟩
  | @items gap tail _ hgap hstart h =>
    obtain ⟨bs, hbs, hp, hitems⟩ := h.transfer hitem
    refine ⟨bs, hbs, fun b hb => ?_, .items hgap hstart hitems⟩
    obtain ⟨part, hpart, hp⟩ := hp b hb
    exact ⟨part, hpart.trans ⟨gap, [], by simp⟩, hp⟩

end

/-- The text that a value was read from is taken as that value, and no space comes before it. -/
def IsSource (depth : Nat) (m : String × Json × List Char) : Prop :=
  Takes (value depth) m.2.2 m.2.1 ∧ Starts ' ' m.2.2

theorem exists_source {depth : Nat} {text : List Char} {m : String × Json}
    (h : Takes (member stringText fun _ => value depth) text m) :
    ∃ m' : String × Json × List Char, (m'.1, m'.2.1) = m ∧
      (IsSource depth m' ∧ m'.2.2 <:+: text) ∧
      Takes (member stringText fun _ => withSource (value depth)) text m' := by
  obtain ⟨text', hm, heq⟩ := of_member isLocal_stringText (fun _ => isLocal_value depth)
    (fun _ => value_nil depth) h.ends_nil
  obtain rfl : text = text' := by simpa using heq
  cases hm with
  | mk hkey hgap hgap' hstart hv =>
    exact ⟨_, rfl, ⟨⟨hv, hstart⟩, List.suffix_append _ _ |>.isInfix⟩,
      (MemberText.mk hkey hgap hgap' hstart hv.withSource).takes⟩

theorem IsGap.ends_self {gap : List Char} (h : IsGap gap) : Ends gap := by
  have hnil : Ends [] := by simp [Ends]
  simpa using h.ends hnil

theorem of_wholeText {read : Reader α} {text : List Char} {a : α}
    (h : wholeText read text = .ok a) : ∃ rest, IsGap rest ∧ read text = .ok (a, rest) := by
  cases hr : read text with
  | error e => simp [wholeText, hr, bind, Except.bind] at h
  | ok p =>
    simp only [wholeText, hr, bind, Except.bind, pure, Except.pure] at h
    split at h
    · next hskip =>
      obtain rfl : p.1 = a := by simpa using h
      obtain ⟨gap, hgap, heq⟩ := exists_gap p.2
      rw [hskip, List.append_nil] at heq
      exact ⟨p.2, heq ▸ hgap, rfl⟩
    · simp at h

theorem wholeText_of_takes {read : Reader α} {text ending : List Char} {a : α}
    (h : Takes read text a) (hending : IsGap ending) : wholeText read (text ++ ending) = .ok a := by
  have hread := h ending hending.ends_self
  have hskip : skipSpace ending = [] := by simpa [skipSpace] using skipSpace_append hending []
  simp [wholeText, hread, hskip, bind, Except.bind, pure, Except.pure]

/-- The members of an object that was read, with the parts of the text that their values stand
in. -/
theorem exists_memberSources {text : String} {document : Members}
    (h : parse text = .ok (.object document)) :
    ∃ members : List (String × Json × List Char),
      document = Members.ofList (members.map fun m => (m.1, m.2.1)) ∧
      memberSources text = members.map (fun m => (m.1, String.ofList m.2.2)) ∧
      ∀ m ∈ members, IsSource (maxDepth - 1) m ∧ m.2.2 <:+: text.toList := by
  obtain ⟨rest, hrest, hread⟩ := of_wholeText h
  rw [value_maxDepth] at hread
  obtain ⟨t, ht, hs⟩ := of_valueWith isLocal_stringText
    (by rintro item ⟨⟩; exact ⟨isLocal_value _, value_nil _⟩) hread
  clear hread
  generalize hv : Json.object document = v at ht
  cases ht with
  | @object item s members hitem hseq =>
    cases hitem
    cases hv
    obtain ⟨ms, hms, hsources, hseq'⟩ :=
      hseq.transfer (f := fun m : String × Json × List Char => (m.1, m.2.1)) exists_source
    refine ⟨ms, by rw [hms], ?_, fun m hm => ?_⟩
    · have hread := hseq'.takes (Or.inr rfl) rest hrest.ends_self
      rw [memberSources, hs]
      simp only [List.cons_append, hread]
    · obtain ⟨part, hpart, hsource, hinfix⟩ := hsources m hm
      obtain ⟨gap, -, hgap⟩ := exists_gap text.toList
      refine ⟨hsource, hinfix.trans (hpart.trans ⟨gap ++ ['\x7b'], rest, ?_⟩)⟩
      rw [hgap, hs]
      simp
  | _ => simp at hv

/-- The text of the value that counts under a key, or nothing. -/
def sourceOf (text key : String) : List Char :=
  (((memberSources text).reverse.lookup key).getD "").toList

/-- The last member under a key is the one whose value counts, so that the value and its text come
from the same place. -/
theorem lookup_sourceOf {text key : String} {document : Members} {v : Json}
    (h : parse text = .ok (.object document)) (hv : Members.get? key document = some v) :
    (memberSources text).reverse.lookup key = some (String.ofList (sourceOf text key)) ∧
      IsSource (maxDepth - 1) (key, v, sourceOf text key) ∧
      sourceOf text key <:+: text.toList := by
  obtain ⟨members, rfl, hsources, hmembers⟩ := exists_memberSources h
  rw [Members.get?_ofList, ← List.map_reverse,
    Members.lookup_map (fun v : Json × List Char => v.1), Option.map_eq_some_iff] at hv
  obtain ⟨⟨v', source⟩, hlookup, rfl⟩ := hv
  have hfound : (memberSources text).reverse.lookup key = some (String.ofList source) := by
    rw [hsources, ← List.map_reverse,
      Members.lookup_map fun v : Json × List Char => String.ofList v.2, hlookup]
    rfl
  have hsource : sourceOf text key = source := by
    rw [sourceOf, hfound, Option.getD_some, String.toList_ofList]
  obtain ⟨front, back, hsplit, -⟩ := List.lookup_eq_some_iff.mp hlookup
  rw [hsource]
  exact ⟨hfound, hmembers (key, v', source)
    (List.mem_reverse.mp (hsplit ▸ List.mem_append_right _ List.mem_cons_self))⟩

end PluginWorkshop.Json
