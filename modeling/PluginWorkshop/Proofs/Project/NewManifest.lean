import PluginWorkshop.Project.Start
import PluginWorkshop.Proofs.Manifest.Saving

/-!
# The manifest of a new plugin

The text of a new manifest is a printed document (`manifestText_eq`), whatever is put into its
slots, so that it is read as that document (`parse_manifestText`): with the name of the package, the
description as it was given, the base library and a mapping for the namespace
(`namespaceMapping_newManifest`).
-/

namespace PluginWorkshop

open Text

/-! ## Namespaces -/

/-- The separator at the end of a namespace is trimmed, and nothing else. -/
theorem trimWhere_namespace {name : String} (h : isNamespace name = true) :
    trimWhere (· == '\\') (name ++ "\\").toList = name.toList ∧ name.toList ≠ [] := by
  have hpieces : ∀ piece ∈ splitOn '\\' name.toList, piece ≠ [] := by
    rintro piece hpiece rfl
    exact absurd (List.all_eq_true.mp h [] hpiece) (by decide)
  have hfirst : name.toList.head? ≠ some '\\' := by
    intro hhead
    obtain ⟨rest, hrest⟩ := List.head?_eq_some_iff.mp hhead
    exact hpieces [] (by rw [hrest]; simp [splitOn, splitWhere]) rfl
  have hlast : name.toList.getLast? ≠ some '\\' := by
    intro hlast
    obtain ⟨front, hfront⟩ := List.getLast?_eq_some_iff.mp hlast
    refine hpieces [] ?_ rfl
    rw [hfront, splitOn_append_cons]
    simp [splitOn, splitWhere]
  have hne : name.toList ≠ [] := by
    intro hnil
    exact hpieces [] (by rw [hnil]; simp [splitOn, splitWhere]) rfl
  refine ⟨?_, hne⟩
  obtain ⟨c, rest, hcons⟩ := List.exists_cons_of_ne_nil hne
  obtain ⟨front, d, hconcat⟩ := (List.eq_nil_or_concat name.toList).resolve_left hne
  have hc : c ≠ '\\' := by simpa [hcons] using hfirst
  have hd : d ≠ '\\' := by simpa [hconcat] using hlast
  have hstart : (name.toList ++ ['\\']).dropWhile (· == '\\') = name.toList ++ ['\\'] := by
    rw [hcons, List.cons_append, List.dropWhile_cons_of_neg (by simpa using hc)]
  rw [trimWhere, String.toList_append, show "\\".toList = ['\\'] by decide, hstart,
    List.reverse_append, List.reverse_singleton, List.singleton_append,
    List.dropWhile_cons_of_pos (by decide), hconcat, List.concat_eq_append, List.reverse_append,
    List.reverse_singleton, List.singleton_append,
    List.dropWhile_cons_of_neg (by simpa using hd), ← List.singleton_append, List.reverse_append,
    List.reverse_reverse, List.reverse_singleton]

namespace Json

theorem quote_of_plain {text : String}
    (h : text.toList.all (fun c => escapeChar c == [c]) = true) :
    quote text = '"' :: text.toList ++ ['"'] := by
  rw [quote, escape, List.flatMap_congr (g := fun c => [c]) ?_, List.flatMap_singleton']
  intro c hc
  simpa using List.all_eq_true.mp h c hc

/-- A printed value with a line feed after it is read back. -/
theorem parse_pretty {unit : List Char} (hunit : IsIndent unit) {v : Json}
    (hv : Readable maxDepth v) :
    parse (String.ofList (prettyChars [] unit v ++ ['\n'])) = .ok v := by
  have hgap : IsGap ['\n'] := by simp [IsGap, isSpace]
  have htakes := takes_prettyChars hgap hunit (by simp [IsIndent] : IsIndent []) hv
  have hsame : replaceChar '\n' ['\n'] (prettyChars [] unit v) = prettyChars [] unit v := by
    rw [replaceChar, List.flatMap_congr (g := fun c => [c]) ?_, List.flatMap_singleton']
    intro c _
    split
    · next hc => rw [eq_of_beq hc]
    · rfl
  rw [hsame] at htakes
  rw [parse, String.toList_ofList]
  exact wholeText_of_takes htakes hgap

end Json

namespace StartOptions

variable {options : StartOptions} {slug nameSpace : String}

/-! ## The document -/

/-- The document of a new manifest. -/
def document (options : StartOptions) (slug nameSpace : String) : Members := [
  ("name", .string (options.vendor ++ "/" ++ slug)),
  ("description", .string options.description),
  ("type", .string "wordpress-plugin"),
  ("require", .object [("php", .string ">=7.4"),
    (Project.basePackage, .string baseConstraint)]),
  ("autoload", .object [("psr-4", .object [(nameSpace ++ "\\", .string "src/")])])]

theorem readable_document (options : StartOptions) (slug nameSpace : String) :
    Json.Readable Json.maxDepth (.object (options.document slug nameSpace)) := by
  rw [show Json.maxDepth = 124 + 3 from rfl]
  simp [document, Json.Readable, Members.keys, Project.basePackage]

set_option maxRecDepth 2000 in
/-- The text of a new manifest is its document, printed. -/
theorem manifestText_eq (options : StartOptions) (slug nameSpace : String) :
    options.manifestText slug nameSpace = String.ofList
      (Json.prettyChars [] "    ".toList (.object (options.document slug nameSpace)) ++ ['\n']) := by
  have hquote : ∀ text, Json.quote text =
      '"' :: (String.ofList (Json.escape text.toList)).toList ++ ['"'] := by
    intro text
    rw [Json.quote, String.toList_ofList]
  have hconstraint : String.ofList (Json.escape baseConstraint.toList) = "^1.0" := by decide
  have hsource : String.ofList (Json.escape "src/".toList) = "src/" := by decide
  rw [← String.toList_inj, manifestText, TemplateName.render, Template.toList_render,
    String.toList_ofList]
  simp only [TemplateVars.setJson, hconstraint, hsource, document, Json.prettyChars,
    Json.prettyMembers, Project.basePackage]
  rw [hquote (options.vendor ++ "/" ++ slug), hquote options.description,
    hquote (nameSpace ++ "\\"), hquote baseConstraint, hconstraint]
  -- From here on the values stand for any text, escaped as it may be.
  generalize String.ofList (Json.escape (options.vendor ++ "/" ++ slug).toList) = package
  generalize String.ofList (Json.escape options.description.toList) = description
  generalize String.ofList (Json.escape (nameSpace ++ "\\").toList) = key
  have htext : ∀ vars text, Template.renderPiece vars (.text text) = text := fun _ _ => rfl
  generalize hvars : TemplateVars.set _ "source_dir" _ = vars
  have hpackage : vars.get? "package_name" = some package := hvars ▸ rfl
  have hdescription : vars.get? "description" = some description := hvars ▸ rfl
  have hversion : vars.get? "wp_trait_version" = some "^1.0" := hvars ▸ rfl
  have hkey : vars.get? "namespace_key" = some key := hvars ▸ rfl
  have hdirectory : vars.get? "source_dir" = some "src/" := hvars ▸ rfl
  simp (disch := decide) only [Json.quote_of_plain, TemplateName.template, Template.manifest,
    Template.ofLines, List.flatMap_cons, List.flatMap_nil, Template.renderPiece_slot, htext,
    Json.block, Json.commaSeparated, List.map_cons, List.map_nil, List.cons_append, List.nil_append,
    List.append_nil, List.append_assoc, hpackage, hdescription, hversion, hkey, hdirectory,
    Option.getD_some, -String.reduceToList]
  rfl

/-- The manifest that is read from the text of a new one. -/
def newManifest (options : StartOptions) (slug nameSpace : String) (path : Path) : Manifest where
  path := path
  document := options.document slug nameSpace
  loaded := options.document slug nameSpace
  source := options.manifestText slug nameSpace
  indent := Manifest.indentOf (options.manifestText slug nameSpace)

theorem parse_manifestText (options : StartOptions) (slug nameSpace : String) (path : Path) :
    Manifest.parse path (options.manifestText slug nameSpace) =
      .ok (options.newManifest slug nameSpace path) := by
  have hparse : Json.parse (options.manifestText slug nameSpace) =
      .ok (.object (options.document slug nameSpace)) := by
    rw [manifestText_eq]
    exact Json.parse_pretty (by simp [Json.IsIndent, isSpaceOrTab]) (readable_document _ _ _)
  exact Manifest.parse_of_json hparse path

theorem hasDependency_newManifest (path : Path) :
    (options.newManifest slug nameSpace path).hasDependency Project.basePackage = true := by
  have hequal : equalIgnoringCase Project.basePackage Project.basePackage = true := by decide
  simp [Manifest.hasDependency, Manifest.dependency?, newManifest, document, Members.get?,
    Json.members?, hequal]

/-- The namespace is mapped to the directory of the sources. -/
theorem namespaceMapping_newManifest (options : StartOptions) (slug : String)
    (h : isNamespace nameSpace = true) (path root : Path) :
    (options.newManifest slug nameSpace path).namespaceMapping root =
      .ok ⟨nameSpace ++ "\\", nameSpace, Path.join root "src"⟩ := by
  obtain ⟨htrim, hne⟩ := trimWhere_namespace h
  have hequal : equalIgnoringCase "psr-4" "psr-4" = true := by decide
  have hslashes : Manifest.withoutSlashes "src/" = "src" := by decide
  have hmapping : Manifest.mappingOf? root (nameSpace ++ "\\", .string "src/") =
      some ⟨nameSpace ++ "\\", nameSpace, Path.join root "src"⟩ := by
    rw [Manifest.mappingOf?, htrim, if_neg (by simpa using hne), String.ofList_toList, ← hslashes]
    rfl
  have hmap : (options.newManifest slug nameSpace path).namespaceMap? =
      some [(nameSpace ++ "\\", .string "src/")] := by
    simp [Manifest.namespaceMap?, newManifest, document, Members.get?, Json.members?, hequal]
  rw [Manifest.namespaceMapping, hmap]
  dsimp only
  rw [List.findSome?_cons, hmapping]

end StartOptions

end PluginWorkshop
