import PluginWorkshop.CommandLog.Entry
import PluginWorkshop.Proofs.Json.Sources

/-!
# Stored entries

An entry of the command log is read as it was written (`CommandEntry.parse?_render`): each field by
the reader of its own kind. Named options are put under their names one after the other, which keeps
all of them as long as the names are different (`OptionMap.perm_ofList`).
-/

namespace PluginWorkshop

/-! ## Named options -/

namespace OptionMap

/-- A new name is one entry more. -/
theorem perm_insertInto {name value : String} {entries : List (String × String)}
    (h : name ∉ entries.map Prod.fst) :
    (insertInto name value entries).Perm ((name, value) :: entries) := by
  induction entries with
  | nil => rfl
  | cons entry entries ih =>
    rw [List.map_cons, List.mem_cons, not_or] at h
    rw [insertInto, if_neg h.1]
    split_ifs
    · rfl
    · exact ((ih h.2).cons _).trans (.swap _ _ _)

theorem perm_foldl_insert {entries : List (String × String)} (options : OptionMap)
    (h : ((options.entries ++ entries).map Prod.fst).Nodup) :
    (entries.foldl (fun options (name, value) => options.insert name value) options).entries.Perm
      (options.entries ++ entries) := by
  induction entries generalizing options with
  | nil => simp
  | cons entry entries ih =>
    have hmiddle : (options.entries ++ entry :: entries).Perm
        ((entry :: options.entries) ++ entries) := List.perm_middle
    have hnodup := (hmiddle.map Prod.fst).nodup_iff.mp h
    have hnew : entry.1 ∉ options.entries.map Prod.fst := by
      simp only [List.cons_append, List.map_cons, List.nodup_cons, List.map_append, List.mem_append,
        not_or] at hnodup
      exact hnodup.1.1
    have hinsert : (options.insert entry.1 entry.2).entries.Perm (entry :: options.entries) :=
      perm_insertInto hnew
    have hrest := hinsert.append_right entries
    exact (ih _ ((hrest.map Prod.fst).nodup_iff.mpr hnodup)).trans (hrest.trans hmiddle.symm)

/-- Names that are all different are put into a map with their values. -/
theorem perm_ofList {entries : List (String × String)} (h : (entries.map Prod.fst).Nodup) :
    (ofList entries).entries.Perm entries :=
  perm_foldl_insert empty h

theorem nodup_names (options : OptionMap) : (options.entries.map Prod.fst).Nodup := by
  refine List.pairwise_map.mpr (options.ordered.imp ?_)
  rintro a b hlt heq
  exact String.lt_irrefl _ (heq ▸ hlt)

theorem ofList_entries (options : OptionMap) : ofList options.entries = options := by
  have hentries : (ofList options.entries).entries = options.entries := by
    refine (perm_ofList options.nodup_names).eq_of_pairwise (fun a b _ _ hlt hgt => ?_)
      (ofList options.entries).ordered options.ordered
    exact absurd hgt (String.lt_asymm hlt)
  cases options
  exact OptionMap.mk.injEq .. ▸ hentries

end OptionMap

/-! ## Fields -/

namespace CommandEntry

open Json

variable {α : Type}

theorem takes_asField {read : Reader α} {text : List Char} {a : α} (h : Takes read text a)
    (field : α → Field) : Takes (asField field read) text (field a) := by
  intro rest hrest
  rw [asField, h rest hrest]
  rfl

theorem takes_textValue (text : String) : Takes textValue (quote text) text := by
  intro rest hrest
  have hread := takes_stringText text rest hrest
  rw [textValue, quote, List.cons_append, List.cons_append, skipSpace_cons rfl]
  exact hread

theorem starts_quote (close : Char) (hclose : close ≠ '"') (text : String) :
    Starts close (quote text) :=
  .of_head rfl hclose.symm

/-- A key in quotes, a colon and a value are read as a member. -/
theorem isPart_member {item : String → Reader α} {key : String} {text : List Char} {a : α}
    (hstart : Starts ' ' text) (h : Takes (item key) text a) :
    IsPart .object (member stringText item) (quote key ++ ':' :: text) (key, a) := by
  refine ⟨[], quote key ++ ':' :: text, rfl, isGap_nil, .of_head rfl (by decide), ?_⟩
  have hmember := MemberText.mk (takes_stringText key) isGap_nil isGap_nil hstart h
  simpa [quote] using hmember.takes

theorem takes_textList (texts : List String) :
    Takes textList ('[' :: commaSeparated (texts.map quote) ++ [']']) texts := by
  have hparts : ∀ text ∈ texts, IsPart .list textValue (quote text) text := fun text _ =>
    ⟨[], quote text, rfl, isGap_nil, starts_quote _ (by decide) text, takes_textValue text⟩
  have hitems := sequenceText_commaSeparated (f := quote) (g := id) isGap_nil hparts
  rw [List.map_id, List.append_nil] at hitems
  intro rest hrest
  have hread := hitems.takes (Or.inl rfl) rest hrest
  rw [textList, List.cons_append, List.cons_append, skipSpace_cons rfl]
  exact hread

theorem takes_textMap (options : OptionMap) :
    Takes textMap ('\x7b' :: commaSeparated (options.entries.map fun (name, value) =>
      quote name ++ ':' :: quote value) ++ ['\x7d']) options := by
  have hparts : ∀ entry ∈ options.entries, IsPart .object (member stringText fun _ => textValue)
      (quote entry.1 ++ ':' :: quote entry.2) entry := fun entry _ =>
    isPart_member (starts_quote ' ' (by decide) entry.2) (takes_textValue entry.2)
  have hmembers := sequenceText_commaSeparated
    (f := fun (name, value) => quote name ++ ':' :: quote value) (g := id) isGap_nil hparts
  rw [List.map_id, List.append_nil] at hmembers
  intro rest hrest
  have hread := hmembers.takes (Or.inr rfl) rest hrest
  rw [textMap, List.cons_append, List.cons_append, skipSpace_cons rfl]
  refine (congrArg (Except.map fun read => (OptionMap.ofList read.1, read.2)) hread).trans ?_
  exact congrArg (fun options => Except.ok (options, rest)) options.ofList_entries

/-! ## Entries -/

variable (entry : CommandEntry)

/-- The members of a stored entry as they are written, with the fields that they are read as. -/
def members : List (List Char × String × Field) :=
  [(quote "command" ++ ':' :: quote entry.command, "command", .command entry.command),
    (quote "args" ++ ':' :: ('[' :: commaSeparated (entry.args.map quote) ++ [']']), "args",
      .args entry.args),
    (quote "assoc_args" ++ ':' :: ('\x7b' :: commaSeparated (entry.options.entries.map
      fun (name, value) => quote name ++ ':' :: quote value) ++ ['\x7d']), "assoc_args",
      .options entry.options)]

attribute [local simp] compactChars compactItems compactMembers

theorem compactItems_strings (texts : List String) :
    compactItems (texts.map .string) = texts.map quote := by
  induction texts with
  | nil => rfl
  | cons text texts ih => simp [ih]

theorem compactMembers_strings (entries : List (String × String)) :
    compactMembers (entries.map fun (name, value) => (name, .string value)) =
      entries.map fun (name, value) => quote name ++ ':' :: quote value := by
  induction entries with
  | nil => rfl
  | cons entry entries ih => simp [ih]

theorem toList_render :
    entry.render.toList = '\x7b' :: commaSeparated (entry.members.map Prod.fst) ++ ['\x7d'] := by
  rw [render, compact, String.toList_ofList, toJson, compactChars]
  simp only [compactMembers, compactChars, compactItems_strings, compactMembers_strings, members,
    List.map_cons, List.map_nil]

theorem isPart_of_mem_members {m : List Char × String × Field} (h : m ∈ entry.members) :
    IsPart .object (member stringText fieldUnder) m.1 m.2 := by
  simp only [members, List.mem_cons, List.not_mem_nil, or_false] at h
  rcases h with rfl | rfl | rfl
  · exact isPart_member (starts_quote ' ' (by decide) _)
      (takes_asField (takes_textValue entry.command) .command)
  · exact isPart_member (.of_head rfl (by decide)) (takes_asField (takes_textList entry.args) .args)
  · exact isPart_member (.of_head rfl (by decide))
      (takes_asField (takes_textMap entry.options) .options)

/-- An entry is read as it was written. -/
theorem parse?_render : parse? entry.render = some entry := by
  have hmembers := sequenceText_commaSeparated (f := Prod.fst) (g := Prod.snd) isGap_nil
    fun m => isPart_of_mem_members entry (m := m)
  rw [List.append_nil] at hmembers
  have htakes : Takes fields entry.render.toList (entry.members.map fun m => m.2.2) := by
    intro rest hrest
    have hread := hmembers.takes (Or.inr rfl) rest hrest
    rw [toList_render, fields, List.cons_append, List.cons_append, skipSpace_cons rfl]
    exact congrArg (Except.map fun read => (read.1.map Prod.snd, read.2)) hread
  have hwhole := wholeText_of_takes htakes isGap_nil
  rw [List.append_nil] at hwhole
  rw [parse?, hwhole]
  rfl

end CommandEntry

end PluginWorkshop
