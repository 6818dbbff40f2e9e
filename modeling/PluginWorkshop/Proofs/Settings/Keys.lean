import PluginWorkshop.Proofs.Text.Splitting
import PluginWorkshop.Proofs.Text.Trimming
import PluginWorkshop.Settings.Basic
import Mathlib.Data.List.Forall2

/-!
# Settings by their names

Each name stands for one setting. Setting it changes what is read under this name and nothing else,
and what is read can be set again without a change (`setNamed_sets`). For the arguments of Composer
this is so because texts that can be arguments (`IsArgument`) are read back from the text that lists
them (`argsOfText_intercalate`).
-/

namespace PluginWorkshop

open Text

theorem SettingKey.parse?_name (key : SettingKey) : parse? key.name = some key := by
  cases key <;> decide

theorem SettingKey.parse?_eq_none {name : String} (h : ∀ key : SettingKey, key.name ≠ name) :
    parse? name = none :=
  List.find?_eq_none.mpr fun key _ => by simpa using h key

theorem SettingKey.name_eq_of_parse? {key : SettingKey} {name : String}
    (h : parse? name = some key) : key.name = name := by
  simpa using List.find?_some h

namespace Settings

variable {settings changed : Settings} {key other : SettingKey} {name text value : String}

/-! ## Fields -/

/-- What a setting was set to first does not count. -/
theorem set_set (settings : Settings) (key : SettingKey) {first : String} (text : String) :
    (settings.set key first).set key text = settings.set key text := by
  cases key <;> rfl

theorem get_set_of_ne (h : other ≠ key) (settings : Settings) (text : String) :
    (settings.set key text).get other = settings.get other := by
  cases key <;> cases other <;> first | rfl | exact absurd rfl h

theorem setNamed_eq_ok : settings.setNamed name text = .ok changed ↔
    ∃ key, SettingKey.parse? name = some key ∧ changed = settings.set key text := by
  rw [setNamed]
  cases SettingKey.parse? name <;> simp [eq_comm]

theorem setNamed_name (settings : Settings) (key : SettingKey) (text : String) :
    settings.setNamed key.name text = .ok (settings.set key text) :=
  setNamed_eq_ok.mpr ⟨key, key.parse?_name, rfl⟩

theorem getNamed?_name (settings : Settings) (key : SettingKey) :
    settings.getNamed? key.name = some (settings.get key) := by
  rw [getNamed?, key.parse?_name]
  rfl

theorem getNamed?_set_of_ne (h : name ≠ key.name) (settings : Settings) (text : String) :
    (settings.set key text).getNamed? name = settings.getNamed? name := by
  rw [getNamed?, getNamed?]
  cases hparse : SettingKey.parse? name with
  | none => rfl
  | some other =>
    have hother : other ≠ key := by
      rintro rfl
      exact h (SettingKey.name_eq_of_parse? hparse).symm
    exact congrArg some (get_set_of_ne hother settings text)

/-! ## Arguments -/

/-- A text that can be one of several arguments: something without commas, and without blanks at
either end. -/
structure IsArgument (text : String) : Prop where
  ne_empty : text ≠ ""
  comma : ',' ∉ text.toList
  trimmed : Strips text.toList text.toList

theorem isArgument_of_mem_argsOfText (h : value ∈ argsOfText text) : IsArgument value := by
  obtain ⟨core, hcore, rfl⟩ := List.mem_map.mp h
  obtain ⟨hmem, hne⟩ := List.mem_filter.mp hcore
  obtain ⟨part, hpart, rfl⟩ := List.mem_map.mp hmem
  refine ⟨by simpa using hne, ?_, ?_⟩
  · rw [String.toList_ofList]
    exact fun hcomma => notMem_of_mem_splitOn hpart ((trim_sublist part).subset hcomma)
  · rw [String.toList_ofList]
    exact (strips_trim part).self

/-- The arguments in a list of characters. -/
def argsOfChars (s : List Char) : List String :=
  (((splitOn ',' s).map trim).filter (!·.isEmpty)).map String.ofList

theorem argsOfChars_append_comma (a b : List Char) :
    argsOfChars (a ++ ',' :: b) = argsOfChars a ++ argsOfChars b := by
  simp [argsOfChars, splitOn_append_cons]

/-- A blank in front does not count. -/
theorem argsOfChars_cons_space (s : List Char) : argsOfChars (' ' :: s) = argsOfChars s := by
  obtain ⟨first, parts, hparts⟩ := List.exists_cons_of_ne_nil (splitWhere_ne_nil (· == ',') s)
  have hspace : splitOn ',' (' ' :: s) = (' ' :: first) :: parts :=
    splitOn_append_of_notMem (by decide : ',' ∉ [' ']) hparts
  have htrim : trim (' ' :: first) = trim first := by
    rw [trim_eq_iff]
    exact (strips_trim first).cons_blank (by decide)
  rw [argsOfChars, argsOfChars, hspace, splitOn, hparts, List.map_cons, List.map_cons, htrim]

theorem IsArgument.argsOfChars_eq (h : IsArgument text) : argsOfChars text.toList = [text] := by
  have hne : text.toList ≠ [] := mt String.toList_eq_nil_iff.mp h.ne_empty
  simp [argsOfChars, splitOn_of_notMem h.comma, h.trimmed.trim_eq, hne]

/-- Arguments are read back from the text that lists them. -/
theorem argsOfText_intercalate {args : List String} (h : ∀ arg ∈ args, IsArgument arg) :
    argsOfText (", ".intercalate args) = args := by
  change argsOfChars (", ".intercalate args).toList = args
  induction args with
  | nil => decide
  | cons arg args ih =>
    obtain ⟨harg, hargs⟩ := List.forall_mem_cons.mp h
    cases args with
    | nil => simpa using harg.argsOfChars_eq
    | cons next args =>
      have hcomma : (", ".intercalate (arg :: next :: args)).toList =
          arg.toList ++ ',' :: ' ' :: (", ".intercalate (next :: args)).toList := by
        simp [String.intercalate_cons_cons]
      rw [hcomma, argsOfChars_append_comma, argsOfChars_cons_space, ih hargs, harg.argsOfChars_eq]
      rfl

/-- The texts are the arguments that a text lists: its parts between commas, each without the blanks
around it, as far as anything is left of them. -/
def AreArguments (args : List String) (text : String) : Prop :=
  ∃ parts cores, join [','] parts = text.toList ∧ (∀ part ∈ parts, ',' ∉ part) ∧
    List.Forall₂ Strips parts cores ∧ args.map String.toList = cores.filter (!·.isEmpty)

theorem areArguments_argsOfText (text : String) : AreArguments (argsOfText text) text := by
  refine ⟨splitOn ',' text.toList, (splitOn ',' text.toList).map trim, join_splitOn _ _,
    fun part hpart => notMem_of_mem_splitOn hpart, ?_, ?_⟩
  · rw [List.forall₂_map_right_iff, List.forall₂_same]
    exact fun part _ => strips_trim part
  · simp [argsOfText, Function.comp_def]

/-! ## Setting -/

/-- What is read of a setting once it was set to a text. -/
def IsReadAfter (text : String) (value : String) : SettingKey → Prop
  | .installArgs => ∃ args, AreArguments args text ∧ value = ", ".intercalate args
  | .defaultFormat | .logLevel | .composerBinary | .wpBinary => value = text

/-- The settings differ from those before in one setting, which holds what a text says. -/
structure Sets (settings changed : Settings) (key : SettingKey) (text : String) : Prop where
  other : ∀ name ≠ key.name, changed.getNamed? name = settings.getNamed? name
  /-- What it was set to before does not count. -/
  again : ∀ next, changed.setNamed key.name next = settings.setNamed key.name next
  /-- What is read can be set again, and nothing changes. -/
  value : ∃ value, changed.getNamed? key.name = some value ∧ IsReadAfter text value key ∧
    changed.setNamed key.name value = .ok changed

theorem isReadAfter_get_set (settings : Settings) (key : SettingKey) (text : String) :
    IsReadAfter text ((settings.set key text).get key) key := by
  cases key with
  | installArgs => exact ⟨argsOfText text, areArguments_argsOfText text, rfl⟩
  | _ => rfl

/-- Setting a setting to what is read of it changes nothing. -/
theorem set_get_set (settings : Settings) (key : SettingKey) (text : String) :
    (settings.set key text).set key ((settings.set key text).get key) = settings.set key text := by
  rw [set_set]
  cases key with
  | installArgs =>
    have hargs : argsOfText (", ".intercalate (argsOfText text)) = argsOfText text :=
      argsOfText_intercalate fun arg harg => isArgument_of_mem_argsOfText harg
    simp [set, get, hargs]
  | _ => rfl

theorem sets_set (settings : Settings) (key : SettingKey) (text : String) :
    Sets settings (settings.set key text) key text where
  other name hname := getNamed?_set_of_ne hname settings text
  again next := by rw [setNamed_name, setNamed_name, set_set]
  value := ⟨_, getNamed?_name _ key, isReadAfter_get_set settings key text, by
    rw [setNamed_name, set_get_set]⟩

/-- Each name of a setting can be set, which changes this setting alone. No other name can be read
or set. -/
theorem setNamed_sets (settings : Settings) (name text : String) :
    (∀ key : SettingKey, key.name = name →
      ∃ changed, settings.setNamed name text = .ok changed ∧ Sets settings changed key text) ∧
    ((∀ key : SettingKey, key.name ≠ name) →
      settings.getNamed? name = none ∧ settings.setNamed name text = .error (.unknownKey name)) := by
  constructor
  · rintro key rfl
    exact ⟨settings.set key text, setNamed_name settings key text, sets_set settings key text⟩
  · intro hname
    have hparse := SettingKey.parse?_eq_none hname
    simp [getNamed?, setNamed, hparse]

theorem setNamed_sets_blankParts :
    (∃ changed, standard.setNamed "composer.install_args" " a,, b c ," = .ok changed ∧
      Sets standard changed .installArgs " a,, b c ,") ∧
    standard.getNamed? "composer.args" = none ∧
      standard.setNamed "composer.args" "a" = .error (.unknownKey "composer.args") :=
  ⟨(setNamed_sets standard _ _).1 .installArgs rfl,
    (setNamed_sets standard _ _).2 fun key => by cases key <;> decide⟩

example : (standard.set .installArgs " a,, b c ,").get .installArgs = "a, b c" := by decide

end Settings

end PluginWorkshop
