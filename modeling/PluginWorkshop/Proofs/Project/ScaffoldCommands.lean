import PluginWorkshop.Proofs.Machine.Entries
import PluginWorkshop.Proofs.Project.Slugs

/-!
# The command for WP-CLI

What is asked of WP-CLI is one list of arguments (`StartOptions.arguments`), and each of them is read
as what it was meant for (`Argument.read_text`): a value stays the value of its option, whatever its
text is, and the slug is never read as an option. So the names of the options that WP-CLI sees depend
on which values are given, and not on the values (`StartOptions.SameShape.map_name?_arguments`).
-/

namespace PluginWorkshop

open Text

/-! ## Arguments -/

/-- An argument on a command line. -/
inductive Argument where
  | positional (text : String)
  | switch (name : String)
  | option (name value : String)
  deriving DecidableEq, Repr

namespace Argument

def text : Argument → String
  | positional text => text
  | switch name => "--" ++ name
  | option name value => "--" ++ name ++ "=" ++ value

/-- Reads an argument back. Two hyphens start the name of an option, which goes on up to the first
equals sign; the value comes behind that. -/
def read (text : String) : Argument :=
  match afterPrefix? ['-', '-'] text.toList with
  | none => positional text
  | some rest =>
    match rest.takeWhile (· != '='), rest.dropWhile (· != '=') with
    | [], _ => positional text
    | name, [] => switch (String.ofList name)
    | name, _ :: value => option (String.ofList name) (String.ofList value)

/-- The option that an argument is for. -/
def name? : Argument → Option String
  | positional _ => none
  | switch name | option name _ => some name

/-- The argument can be told from others: a text does not start as an option does, and the name of an
option ends where it is read to end. -/
def IsDistinct : Argument → Prop
  | positional text => text.toList.head? ≠ some '-'
  | switch name | option name _ => name ≠ "" ∧ '=' ∉ name.toList

theorem afterPrefix?_hyphens (rest : List Char) :
    afterPrefix? ['-', '-'] ('-' :: '-' :: rest) = some rest :=
  afterPrefix?_eq_some.mpr rfl

/-- An argument is read as it was meant. -/
theorem read_text {argument : Argument} (h : argument.IsDistinct) : read argument.text = argument := by
  have hstop : ∀ {name : String}, name ≠ "" ∧ '=' ∉ name.toList →
      (∀ c ∈ name.toList, (c != '=') = true) ∧ ∃ c chars, name.toList = c :: chars := by
    rintro name ⟨hne, hequals⟩
    refine ⟨fun c hc => ?_, List.exists_cons_of_ne_nil (mt String.toList_eq_nil_iff.mp hne)⟩
    simpa using fun heq : c = '=' => hequals (heq ▸ hc)
  cases argument with
  | positional text =>
    have hprefix : afterPrefix? ['-', '-'] text.toList = none := by
      rw [Option.eq_none_iff_forall_ne_some]
      intro rest hrest
      rw [afterPrefix?_eq_some] at hrest
      exact h (by rw [hrest]; rfl)
    rw [Argument.text, read, hprefix]
  | switch name =>
    obtain ⟨hall, c, chars, hname⟩ := hstop h
    have htext : (switch name).text.toList = '-' :: '-' :: name.toList := by simp [Argument.text]
    rw [read, htext, afterPrefix?_hyphens]
    dsimp only
    rw [List.takeWhile_eq_self_iff.mpr hall, List.dropWhile_eq_nil_iff.mpr hall, hname]
    dsimp only
    rw [← hname, String.ofList_toList]
  | option name value =>
    obtain ⟨hall, c, chars, hname⟩ := hstop h
    have htext : (option name value).text.toList =
        '-' :: '-' :: (name.toList ++ '=' :: value.toList) := by simp [Argument.text]
    rw [read, htext, afterPrefix?_hyphens]
    dsimp only
    rw [List.takeWhile_append_of_pos hall, List.dropWhile_append_of_pos hall,
      List.takeWhile_cons_of_neg (by decide), List.dropWhile_cons_of_neg (by decide),
      List.append_nil, hname]
    dsimp only
    rw [← hname, String.ofList_toList, String.ofList_toList]

/-- The options for the values that are given. -/
def ofFields (fields : List (String × Option String)) : List Argument :=
  fields.flatMap fun (name, value) => (value.map (option name)).toList

/-- The switches that are set. -/
def ofSwitches (switches : List (String × Bool)) : List Argument :=
  switches.flatMap fun (name, isSet) => if isSet then [switch name] else []

theorem isDistinct_of_mem_ofFields {fields : List (String × Option String)} {argument : Argument}
    (hnames : ∀ name ∈ fields.map Prod.fst, name ≠ "" ∧ '=' ∉ name.toList)
    (h : argument ∈ ofFields fields) : argument.IsDistinct := by
  obtain ⟨⟨name, value⟩, hfield, h⟩ := List.mem_flatMap.mp h
  obtain ⟨text, -, rfl⟩ := Option.map_eq_some_iff.mp (Option.mem_toList.mp h)
  exact hnames name (List.mem_map_of_mem hfield)

theorem isDistinct_of_mem_ofSwitches {switches : List (String × Bool)} {argument : Argument}
    (hnames : ∀ name ∈ switches.map Prod.fst, name ≠ "" ∧ '=' ∉ name.toList)
    (h : argument ∈ ofSwitches switches) : argument.IsDistinct := by
  obtain ⟨⟨name, isSet⟩, hswitch, h⟩ := List.mem_flatMap.mp h
  dsimp only at h
  split_ifs at h
  · obtain rfl := List.mem_singleton.mp h
    exact hnames name (List.mem_map_of_mem hswitch)
  · cases h

/-- Which options there are depends on which values are given, and not on the values. -/
theorem map_name?_ofFields (fields : List (String × Option String)) :
    (ofFields fields).map name? =
      (fields.map fun (name, value) => (name, value.isSome)).flatMap
        fun (name, isGiven) => if isGiven then [some name] else [] := by
  rw [ofFields, List.map_flatMap, List.flatMap_map]
  refine List.flatMap_congr fun ⟨name, value⟩ _ => ?_
  cases value <;> rfl

end Argument

/-! ## The command -/

namespace StartOptions

open Argument

variable {options options' : StartOptions} {slug : String} {directory : Path}

/-- The fields that are handed on to WP-CLI. -/
def optionFields (options : StartOptions) : List (String × Option String) :=
  options.headerFields ++ [("ci", options.ci)]

/-- What is asked of WP-CLI: the command, the slug and the directory, then one option for each value
that is given, and one for each switch that is set. -/
def arguments (options : StartOptions) (slug : String) (directory : Path) : List Argument :=
  [positional "scaffold", positional "plugin", positional slug, option "dir" directory] ++
    ofFields options.optionFields ++ ofSwitches options.switches

theorem map_text_ofFields (fields : List (String × Option String)) :
    (ofFields fields).map text =
      (given fields).map fun (name, value) => "--" ++ name ++ "=" ++ value := by
  induction fields with
  | nil => rfl
  | cons field fields ih =>
    obtain ⟨name, value | value⟩ := field
    · exact ih
    · exact congrArg (("--" ++ name ++ "=" ++ value) :: ·) ih

theorem map_text_ofSwitches (options : StartOptions) :
    (ofSwitches options.switches).map text = options.setSwitches.map ("--" ++ ·) := by
  rw [setSwitches]
  induction options.switches with
  | nil => rfl
  | cons switch switches ih =>
    obtain ⟨name, isSet⟩ := switch
    cases isSet with
    | false => exact ih
    | true => exact congrArg (("--" ++ name) :: ·) ih

/-- The command is made of these arguments, and fails only for want of a slug. -/
theorem scaffoldCommand_eq (h : options.resolvedSlug = .ok slug) (wpBinary : String)
    (directory : Path) : options.scaffoldCommand wpBinary directory =
      .ok (wpBinary :: (options.arguments slug directory).map text) := by
  have hdir : (option "dir" directory).text = "--dir=" ++ directory := by
    rw [text, show "--" ++ "dir" ++ "=" = "--dir=" by decide]
  rw [arguments, List.map_append, List.map_append, map_text_ofFields, map_text_ofSwitches,
    scaffoldCommand, h, List.map_cons, List.map_cons, List.map_cons, List.map_cons, hdir]
  rfl

theorem map_fst_optionFields (options : StartOptions) : options.optionFields.map Prod.fst =
    ["plugin_name", "plugin_description", "plugin_author", "plugin_author_uri", "plugin_uri",
      "ci"] := rfl

theorem map_fst_switches (options : StartOptions) : options.switches.map Prod.fst =
    ["skip-tests", "activate", "activate-network", "force"] := rfl

theorem isDistinct_of_isSlug (h : IsSlug slug.toList) : (positional slug).IsDistinct := by
  intro hhyphen
  obtain ⟨c, -, -, hhead, hc, -⟩ := h.exists_words_eq
  obtain rfl := Option.some.inj (hhead.symm.trans hhyphen)
  exact absurd hc (by decide)

theorem isDistinct_of_mem_arguments (hslug : IsSlug slug.toList) {argument : Argument}
    (h : argument ∈ options.arguments slug directory) : argument.IsDistinct := by
  rw [arguments, List.mem_append, List.mem_append] at h
  rcases h with (h | h) | h
  · simp only [List.mem_cons, List.not_mem_nil, or_false] at h
    rcases h with rfl | rfl | rfl | rfl
    · exact (by decide : "scaffold".toList.head? ≠ some '-')
    · exact (by decide : "plugin".toList.head? ≠ some '-')
    · exact isDistinct_of_isSlug hslug
    · exact (by decide : "dir" ≠ "" ∧ '=' ∉ "dir".toList)
  · exact isDistinct_of_mem_ofFields (map_fst_optionFields options ▸ by decide) h
  · exact isDistinct_of_mem_ofSwitches (map_fst_switches options ▸ by decide) h

/-- All arguments are read as they were meant. -/
theorem map_read_arguments (hslug : IsSlug slug.toList) :
    ((options.arguments slug directory).map text).map read = options.arguments slug directory := by
  rw [List.map_map]
  exact (List.map_congr_left fun argument h =>
    read_text (isDistinct_of_mem_arguments hslug h)).trans (List.map_id _)

/-- Both options give values for the same fields of the command, and set the same switches. -/
structure SameShape (options options' : StartOptions) : Prop where
  pluginName : options.pluginName.isSome = options'.pluginName.isSome
  pluginDescription : options.pluginDescription.isSome = options'.pluginDescription.isSome
  pluginAuthor : options.pluginAuthor.isSome = options'.pluginAuthor.isSome
  pluginAuthorUri : options.pluginAuthorUri.isSome = options'.pluginAuthorUri.isSome
  pluginUri : options.pluginUri.isSome = options'.pluginUri.isSome
  ci : options.ci.isSome = options'.ci.isSome
  skipTests : options.skipTests = options'.skipTests
  activate : options.activate = options'.activate
  activateNetwork : options.activateNetwork = options'.activateNetwork
  force : options.force = options'.force

theorem SameShape.map_name?_arguments (h : options.SameShape options') (slug slug' : String)
    (directory directory' : Path) : (options.arguments slug directory).map name? =
      (options'.arguments slug' directory').map name? := by
  have hfields : (options.optionFields.map fun (name, value) => (name, value.isSome)) =
      options'.optionFields.map fun (name, value) => (name, value.isSome) := by
    simp only [optionFields, headerFields, List.cons_append, List.nil_append, List.map_cons,
      List.map_nil, h.pluginName, h.pluginDescription, h.pluginAuthor, h.pluginAuthorUri,
      h.pluginUri, h.ci]
  have hswitches : options.switches = options'.switches := by
    rw [switches, switches, h.skipTests, h.activate, h.activateNetwork, h.force]
  simp only [arguments, List.map_append, List.map_cons, List.map_nil, name?, map_name?_ofFields,
    hfields, hswitches]

/-- Whatever the options say, the slug is made of words with single hyphens between them and stays
as it is, so that it is no option, and the directory of the plugin stands directly in the parent. The
command is the program with arguments that are read as they were meant, and what options it has does
not depend on the values that are given. Without a namespace among the options, there is one exactly
if the slug starts with a letter. -/
theorem scaffoldCommand_sealed (options : StartOptions) (slug : String)
    (h : options.resolvedSlug = .ok slug) :
    (IsSlug slug.toList ∧ slugify slug = slug ∧ slug.toList.head? ≠ some '-' ∧
      ∀ machine parent,
        Os.namedPlace machine (Path.join parent slug) = Os.namedPlace machine parent ++ [slug]) ∧
    (∀ wpBinary directory,
      options.scaffoldCommand wpBinary directory =
        .ok (wpBinary :: (options.arguments slug directory).map text) ∧
      ((options.arguments slug directory).map text).map read = options.arguments slug directory) ∧
    (∀ options' slug', options'.resolvedSlug = .ok slug' → options.SameShape options' →
      ∀ wpBinary directory directory', ∃ command command',
        options.scaffoldCommand wpBinary directory = .ok command ∧
        options'.scaffoldCommand wpBinary directory' = .ok command' ∧
        command.length = command'.length ∧
        command.map (name? ∘ read) = command'.map (name? ∘ read)) ∧
    (options.nameSpace = none →
      ((∃ nameSpace, options.resolvedNamespace slug = .ok nameSpace) ↔
        ∃ c, slug.toList.head? = some c ∧ isLetter c = true)) := by
  have hslug := isSlug_of_resolvedSlug h
  obtain ⟨hname, hdots⟩ := isName_of_resolvedSlug h
  refine ⟨⟨hslug, slugify_of_isSlug hslug, isDistinct_of_isSlug hslug,
    fun machine parent => Os.namedPlace_join_eq machine parent hname hdots⟩,
    fun wpBinary directory => ⟨scaffoldCommand_eq h wpBinary directory, map_read_arguments hslug⟩,
    ?_, fun hnone => resolvedNamespace_of_none hnone hslug⟩
  intro options' slug' h' hshape wpBinary directory directory'
  have hnames : ((options.arguments slug directory).map text).map (name? ∘ read) =
      ((options'.arguments slug' directory').map text).map (name? ∘ read) := by
    rw [← List.map_map, ← List.map_map, map_read_arguments hslug,
      map_read_arguments (isSlug_of_resolvedSlug h'), hshape.map_name?_arguments]
  refine ⟨_, _, scaffoldCommand_eq h wpBinary directory, scaffoldCommand_eq h' wpBinary directory',
    ?_, ?_⟩
  · simpa using congrArg List.length hnames
  · rw [List.map_cons, List.map_cons, hnames]

/-- A name and a description that look like options are read as the values of theirs, and a slug that
starts with a digit is no namespace. -/
theorem scaffoldCommand_sealed_dashes :
    let options : StartOptions := ⟨some "--2FA=../../Log in-", none, some "--force",
      some "x\n--activate=1 ", none, none, none, true, none, false, false, false⟩
    let plain : StartOptions := ⟨none, none, some "My Plugin", some "",
      none, none, none, true, none, false, false, false⟩
    options.resolvedSlug = .ok "2fa-log-in" ∧
      (∃ command command', options.scaffoldCommand "wp" "/srv" = .ok command ∧
        plain.scaffoldCommand "wp" "/a=b" = .ok command' ∧
        command.length = command'.length ∧
        command.map (name? ∘ read) = command'.map (name? ∘ read)) ∧
      Os.namedPlace (Machine.ofTree (.directory [])) (Path.join "/srv" "2fa-log-in") =
        ["srv", "2fa-log-in"] ∧
      ¬ ∃ nameSpace, options.resolvedNamespace "2fa-log-in" = .ok nameSpace := by
  intro options plain
  have hslug : options.resolvedSlug = .ok "2fa-log-in" := by decide
  obtain ⟨⟨-, -, -, hplace⟩, -, hshape, hnameSpace⟩ :=
    scaffoldCommand_sealed options "2fa-log-in" hslug
  refine ⟨hslug, hshape plain "my-plugin" (by decide) ?_ "wp" "/srv" "/a=b", ?_, ?_⟩
  · exact ⟨rfl, rfl, rfl, rfl, rfl, rfl, rfl, rfl, rfl, rfl⟩
  · rw [hplace]
    decide
  · rw [hnameSpace rfl]
    rintro ⟨c, hhead, hc⟩
    obtain rfl : '2' = c := by simpa using hhead
    exact absurd hc (by decide)

end StartOptions

end PluginWorkshop
