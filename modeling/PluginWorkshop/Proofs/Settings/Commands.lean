import PluginWorkshop.CommandLine.Execution
import PluginWorkshop.Proofs.Settings.Keys
import PluginWorkshop.Proofs.Settings.Storing

/-!
# Commands on the settings

A command on the settings either leaves settings behind that can be loaded or fails and leaves
everything as it was (`settings_ok`, `settings_error`). So after any run of commands the settings
are those from before with what the successful commands set (`stand_afterSettings`).

A command that sets something loads the settings first. Where a text stands in the file, it succeeds
exactly if that text is one that can be loaded (`sets_iff_isLoadable`): a file that cannot be loaded
is not mended by it, even if what is set is what is wrong in the file
(`not_sets_of_unknownLevel`).
-/

namespace PluginWorkshop.Execution

open SettingKey (parse?_name)
open Settings (Stand setNamed_eq_ok set_set)

variable {style : Style} {path : Path} {command : SettingsCommand} {machine machine' : Machine}
  {current start : Settings} {output : String} {failure : Failure}
  {commands rest : List (Style × SettingsCommand)}

/-- The settings that a command leaves behind if it succeeds. -/
def applied (current : Settings) : SettingsCommand → Settings
  | .set name text => ((SettingKey.parse? name).map (current.set · text)).getD current
  | _ => current

/-! ## One command -/

/-- Sets the setting of a name in a file. -/
def storeSetting (path : Path) (name text : String) : SettingsAction Unit := do
  let settings ← Settings.load path
  let settings ← MonadExcept.ofExcept (settings.setNamed name text)
  Settings.save path settings

theorem settings_set_eq (style : Style) (path : Path) (name text : String) :
    settings style path (.set name text) = (do
      onSettings (storeSetting path name text)
      return style.done ("Set '" ++ name ++ "' to '" ++ text ++ "'.") (settingReport name text)) :=
  rfl

theorem onSettings_eq_ok {α : Type} {operation : SettingsAction α} {a : α} :
    onSettings operation machine = .ok a machine' ↔ operation machine = .ok a machine' :=
  adaptExcept_eq_ok

theorem onSettings_eq_error {α : Type} {operation : SettingsAction α} :
    onSettings operation machine = .error failure machine' ↔
      ∃ e, operation machine = .error e machine' ∧ .settings e = failure :=
  adaptExcept_eq_error

theorem storeSetting_ok {name text : String} (hstand : Stand path current machine)
    (h : storeSetting path name text machine = .ok () machine') :
    Stand path (applied current (.set name text)) machine' := by
  rw [storeSetting, bind_of_ok hstand.load_eq] at h
  obtain ⟨changed, _, hset, hsave⟩ := bind_eq_ok.mp h
  obtain ⟨key, hkey, rfl⟩ := setNamed_eq_ok.mp (ofExcept_eq_ok.mp hset).1
  have happlied : applied current (.set name text) = current.set key text := by
    rw [applied, hkey]
    rfl
  rw [happlied]
  exact (Settings.save_ok hsave).2

theorem storeSetting_error {name text : String} {e : SettingsError}
    (h : storeSetting path name text machine = .error e machine') :
    machine' = machine ∨ e.isRefusal = true := by
  rcases bind_eq_error.mp h with hload | ⟨current, _, hload, hchange⟩
  · exact Or.inl ((Settings.onlyLooks_load path).of_error hload)
  obtain rfl := (after_of_ok hload).symm.trans (Settings.onlyLooks_load path machine)
  rcases bind_eq_error.mp hchange with hset | ⟨changed, _, hset, hsave⟩
  · exact Or.inl ((onlyLooks_ofExcept _).of_error hset)
  obtain ⟨-, rfl⟩ := ofExcept_eq_ok.mp hset
  exact (Settings.save_error hsave).imp And.right id

/-- A command that succeeds leaves settings behind that can be loaded. -/
theorem settings_ok (hstand : Stand path current machine)
    (h : settings style path command machine = .ok output machine') :
    Stand path (applied current command) machine' := by
  have hload := onSettings_eq_ok.mpr hstand.load_eq
  cases command with
  | create =>
    rw [settings, get_bind] at h
    split_ifs at h with hexists
    · obtain ⟨-, rfl⟩ := pure_eq_ok.mp h
      exact hstand
    · obtain ⟨_, _, hsave, hdone⟩ := bind_eq_ok.mp h
      obtain ⟨-, rfl⟩ := pure_eq_ok.mp hdone
      -- Without a file the settings are the standard ones, which is what is stored.
      have hstandard : current = .standard := by
        rcases hstand with ⟨-, rfl⟩ | ⟨text, hread, -⟩
        · rfl
        · exact absurd (Settings.fileExists_of_readText hread) hexists
      rw [hstandard]
      exact (Settings.save_ok (onSettings_eq_ok.mp hsave)).2
  | «show» =>
    rw [settings, bind_of_ok hload] at h
    obtain ⟨-, rfl⟩ := pure_eq_ok.mp h
    exact hstand
  | get key =>
    rw [settings, bind_of_ok hload] at h
    cases hget : current.getNamed? key with
    | none => simp [hget] at h
    | some value =>
      simp only [hget] at h
      obtain ⟨-, rfl⟩ := pure_eq_ok.mp h
      exact hstand
  | set name text =>
    rw [settings_set_eq] at h
    obtain ⟨_, _, hstore, hdone⟩ := bind_eq_ok.mp h
    obtain ⟨-, rfl⟩ := pure_eq_ok.mp hdone
    exact storeSetting_ok hstand (onSettings_eq_ok.mp hstore)
  | locate =>
    obtain ⟨-, rfl⟩ := pure_eq_ok.mp h
    exact hstand

/-- A command that fails changes nothing, unless the system refused to store the settings. -/
theorem settings_error (h : settings style path command machine = .error failure machine') :
    machine' = machine ∨ ∃ e, failure = .settings e ∧ e.isRefusal = true := by
  cases command with
  | create =>
    rw [settings, get_bind] at h
    split_ifs at h with hexists
    · cases h
    · obtain hstore | ⟨_, _, -, hdone⟩ := bind_eq_error.mp h
      · obtain ⟨e, hsave, rfl⟩ := onSettings_eq_error.mp hstore
        exact (Settings.save_error hsave).imp And.right fun hrefusal => ⟨e, rfl, hrefusal⟩
      · cases hdone
  | «show» =>
    obtain hload | ⟨_, _, -, hdone⟩ := bind_eq_error.mp h
    · obtain ⟨e, hload, -⟩ := onSettings_eq_error.mp hload
      exact Or.inl ((Settings.onlyLooks_load path).of_error hload)
    · cases hdone
  | get key =>
    obtain hload | ⟨current, _, hload, hget⟩ := bind_eq_error.mp h
    · obtain ⟨e, hload, -⟩ := onSettings_eq_error.mp hload
      exact Or.inl ((Settings.onlyLooks_load path).of_error hload)
    · obtain rfl := (after_of_ok (onSettings_eq_ok.mp hload)).symm.trans
        (Settings.onlyLooks_load path machine)
      cases hvalue : current.getNamed? key with
      | none =>
        simp only [hvalue] at hget
        exact Or.inl ((onlyLooks_throw _).of_error hget)
      | some value => simp only [hvalue] at hget; cases hget
  | set name text =>
    rw [settings_set_eq] at h
    obtain hset | ⟨_, _, -, hdone⟩ := bind_eq_error.mp h
    · obtain ⟨e, hstore, rfl⟩ := onSettings_eq_error.mp hset
      exact (storeSetting_error hstore).imp id fun hrefusal => ⟨e, rfl, hrefusal⟩
    · cases hdone
  | locate => cases h

/-! ## Runs of commands -/

/-- The machine after a run of commands, each with the style in which it prints. -/
def afterSettings (path : Path) (commands : List (Style × SettingsCommand)) (machine : Machine) :
    Machine :=
  commands.foldl (fun machine (style, command) => after (settings style path command) machine)
    machine

/-- The commands of a run with what came of them, in order. -/
def settingsLog (path : Path) :
    List (Style × SettingsCommand) → Machine → List (SettingsCommand × Except Failure String)
  | [], _ => []
  | (style, command) :: commands, machine =>
    (command, outcome (settings style path command) machine) ::
      settingsLog path commands (after (settings style path command) machine)

/-- The commands of a run that succeed, in order. -/
def succeeded (path : Path) (commands : List (Style × SettingsCommand)) (machine : Machine) :
    List SettingsCommand :=
  ((settingsLog path commands machine).filter (·.2.toBool)).map Prod.fst

/-- Whether the system refused what a command needed. -/
def wasRefused : Except Failure String → Bool
  | .error (.settings e) => e.isRefusal
  | _ => false

/-- The system refuses nothing in a run. -/
def Unrefused (path : Path) (commands : List (Style × SettingsCommand)) (machine : Machine) :
    Prop :=
  ∀ entry ∈ settingsLog path commands machine, wasRefused entry.2 = false

instance : Decidable (Unrefused path commands machine) := List.decidableBAll _ _

theorem Unrefused.tail (h : Unrefused path ((style, command) :: commands) machine) :
    Unrefused path commands (after (settings style path command) machine) :=
  fun entry hmem => h entry (List.mem_cons_of_mem _ hmem)

theorem afterSettings_cons (path : Path) (style : Style) (command : SettingsCommand)
    (commands : List (Style × SettingsCommand)) (machine : Machine) :
    afterSettings path ((style, command) :: commands) machine =
      afterSettings path commands (after (settings style path command) machine) := rfl

theorem settingsLog_append (path : Path) (before rest : List (Style × SettingsCommand))
    (machine : Machine) :
    settingsLog path (before ++ rest) machine =
      settingsLog path before machine ++ settingsLog path rest (afterSettings path before machine) := by
  induction before generalizing machine with
  | nil => rfl
  | cons step before ih => rw [List.cons_append, settingsLog, settingsLog, ih]; rfl

/-- A command that fails in a run that the system does not refuse changes nothing. -/
theorem Unrefused.eq_of_error (before : List (Style × SettingsCommand))
    (h : Unrefused path (before ++ (style, command) :: rest) machine)
    (herror : settings style path command (afterSettings path before machine) =
      .error failure machine') :
    machine' = afterSettings path before machine := by
  rcases settings_error herror with hsame | ⟨e, rfl, hrefusal⟩
  · exact hsame
  · have hmem : (command, .error (.settings e)) ∈
        settingsLog path (before ++ (style, command) :: rest) machine := by
      rw [settingsLog_append]
      refine List.mem_append_right _ (List.mem_cons.mpr (Or.inl ?_))
      rw [outcome, herror]
    exact absurd hrefusal (by simpa [wasRefused] using h _ hmem)

theorem succeeded_cons_of_ok (h : settings style path command machine = .ok output machine') :
    succeeded path ((style, command) :: commands) machine =
      command :: succeeded path commands machine' := by
  rw [succeeded, settingsLog, after_of_ok h, outcome_of_ok h]
  rfl

theorem succeeded_cons_of_error
    (h : settings style path command machine = .error failure machine') :
    succeeded path ((style, command) :: commands) machine =
      succeeded path commands machine' := by
  rw [succeeded, settingsLog, after_of_error h, outcome, h]
  rfl

/-- What stands in the file after a run, one command after the other. -/
theorem stand_of_unrefused (hstand : Stand path start machine)
    (hrefused : Unrefused path commands machine) :
    Stand path ((succeeded path commands machine).foldl applied start)
      (afterSettings path commands machine) := by
  induction commands generalizing start machine with
  | nil => exact hstand
  | cons step commands ih =>
    obtain ⟨style, command⟩ := step
    have htail := hrefused.tail
    cases hrun : settings style path command machine with
    | ok output machine' =>
      rw [after_of_ok hrun] at htail
      rw [succeeded_cons_of_ok hrun, List.foldl_cons, afterSettings_cons, after_of_ok hrun]
      exact ih (settings_ok hstand hrun) htail
    | error failure machine' =>
      have hsame : machine' = machine := Unrefused.eq_of_error [] hrefused hrun
      rw [after_of_error hrun, hsame] at htail
      rw [succeeded_cons_of_error hrun, afterSettings_cons, after_of_error hrun, hsame]
      exact ih hstand htail

/-- After any run of commands in which the system refuses nothing, there is no file or its settings
are loaded, and they are the ones from before the run with what the successful commands set, in
order. Each command that failed left everything as it was. -/
theorem stand_afterSettings (hstand : Stand path start machine)
    (hrefused : Unrefused path commands machine) :
    Stand path ((succeeded path commands machine).foldl applied start)
        (afterSettings path commands machine) ∧
      Settings.load path (afterSettings path commands machine) =
        .ok ((succeeded path commands machine).foldl applied start)
          (afterSettings path commands machine) ∧
      ∀ before style command rest, commands = before ++ (style, command) :: rest →
        ∀ failure machine',
          settings style path command (afterSettings path before machine) =
            .error failure machine' →
          machine' = afterSettings path before machine := by
  have hafter := stand_of_unrefused hstand hrefused
  refine ⟨hafter, hafter.load_eq, ?_⟩
  rintro before style command rest rfl failure machine' herror
  exact Unrefused.eq_of_error before hrefused herror

/-- A run on a machine without files: a setting that is not there, a value that is not accepted, and
a program name with a quote, a backslash and a line break. -/
def sampleCommands : List (Style × SettingsCommand) :=
  [(⟨.standard, true⟩, .get "general.colour"),
    (⟨.standard, false⟩, .set "general.log_level" "loud"),
    (⟨.standard, false⟩, .set "composer.binary" "a\"b\\c\nd")]

theorem stand_afterSettings_sampleCommands :
    let machine := Machine.ofTree (.directory [])
    let final := afterSettings "conf/config.toml" sampleCommands machine
    Stand "conf/config.toml" .standard machine ∧
      Unrefused "conf/config.toml" sampleCommands machine ∧
      Settings.load "conf/config.toml" final =
        .ok { Settings.standard with composerBinary := "a\"b\\c\nd" } final := by
  intro machine final
  have hstand : Stand "conf/config.toml" .standard machine := Or.inl ⟨by decide, rfl⟩
  have hrefused : Unrefused "conf/config.toml" sampleCommands machine := by decide
  have hsucceeded : (succeeded "conf/config.toml" sampleCommands machine).foldl applied .standard =
      { Settings.standard with composerBinary := "a\"b\\c\nd" } := by decide
  have hload := (stand_afterSettings hstand hrefused).2.1
  rw [hsucceeded] at hload
  exact ⟨hstand, hrefused, hload⟩

/-! ## Where a text stands in the file -/

/-- A text in a file from which settings are loaded. -/
def IsLoadable (text : String) : Prop :=
  ∃ settings, Settings.parse? text = some settings ∧ settings.flaw? = none

/-- The values that a setting can have. -/
def Accepts (text : String) : SettingKey → Prop
  | .defaultFormat => text ∈ Settings.formats
  | .logLevel => text ∈ Settings.logLevels
  | .composerBinary | .wpBinary => Text.isAllBlank text.toList = false
  | .installArgs => Settings.argsOfText text ≠ []

/-- The command that sets a setting succeeds, and the settings that are loaded afterwards have it. -/
def Sets (style : Style) (path : Path) (key : SettingKey) (text : String) (machine : Machine) :
    Prop :=
  ∃ output machine' changed,
    settings style path (.set key.name text) machine = .ok output machine' ∧
      Settings.load path machine' = .ok changed machine' ∧ changed.set key text = changed

variable {key : SettingKey} {text value : String}

/-- Settings without a flaw stay so exactly with a value that is accepted. -/
theorem flaw?_set_eq_none_iff (hflaw : current.flaw? = none) :
    (current.set key value).flaw? = none ↔ Accepts value key := by
  rw [Settings.flaw?_eq_none_iff] at hflaw ⊢
  cases key <;> simp_all [Settings.set, Accepts]

theorem storeSetting_of_isLoadable (hread : Os.readText path machine = .ok text machine)
    (hfaults : machine.faults = []) (hvalue : Accepts value key)
    (hparse : Settings.parse? text = some current) (hflaw : current.flaw? = none) :
    ∃ machine', storeSetting path key.name value machine = .ok () machine' := by
  have hload := Stand.load_eq (Or.inr ⟨text, hread, hparse, hflaw⟩)
  obtain ⟨machine', hsave⟩ := Settings.exists_save hread hfaults
    ((flaw?_set_eq_none_iff hflaw).mpr hvalue)
  refine ⟨machine', ?_⟩
  rw [storeSetting, bind_of_ok hload]
  exact bind_eq_ok.mpr ⟨_, machine,
    ofExcept_eq_ok.mpr ⟨setNamed_eq_ok.mpr ⟨key, parse?_name key, rfl⟩, rfl⟩, hsave⟩

/-- Where the text in the file cannot be loaded, nothing is set. -/
theorem settings_set_of_not_isLoadable (style : Style)
    (hread : Os.readText path machine = .ok text machine) (hload : ¬ IsLoadable text)
    (name value : String) : ∃ failure,
      settings style path (.set name value) machine = .error failure machine := by
  obtain ⟨e, he⟩ : ∃ e, Settings.load path machine = .error e machine := by
    rw [Settings.load_of_readText hread]
    cases hparse : Settings.parse? text with
    | none => exact ⟨_, rfl⟩
    | some found =>
      cases hflaw : found.flaw? with
      | none => exact absurd ⟨found, hparse, hflaw⟩ hload
      | some flaw => exact ⟨flaw, by simp only [hflaw]⟩
  have hstore : storeSetting path name value machine = .error e machine :=
    bind_eq_error.mpr (Or.inl he)
  refine ⟨.settings e, ?_⟩
  rw [settings_set_eq]
  exact bind_eq_error.mpr (Or.inl (onSettings_eq_error.mpr ⟨e, hstore, rfl⟩))

/-- With a text in the file, where nothing fails, a setting can be set to a value that is accepted
exactly if the text can be loaded. Otherwise the command fails and changes nothing. -/
theorem sets_iff_isLoadable (hread : Os.readText path machine = .ok text machine)
    (hfaults : machine.faults = []) (hvalue : Accepts value key) :
    (Sets style path key value machine ↔ IsLoadable text) ∧
      (¬ IsLoadable text → ∃ failure,
        settings style path (.set key.name value) machine = .error failure machine) := by
  have hfail := fun h => settings_set_of_not_isLoadable style hread h key.name value
  refine ⟨⟨fun hsets => ?_, ?_⟩, hfail⟩
  · obtain ⟨output, machine', changed, hrun, -⟩ := hsets
    by_contra hload
    obtain ⟨failure, herror⟩ := hfail hload
    simp [herror] at hrun
  · rintro ⟨current, hparse, hflaw⟩
    obtain ⟨machine', hstore⟩ := storeSetting_of_isLoadable hread hfaults hvalue hparse hflaw
    have hstand := storeSetting_ok (Or.inr ⟨text, hread, hparse, hflaw⟩) hstore
    have happlied : applied current (.set key.name value) = current.set key value := by
      rw [applied, parse?_name]
      rfl
    rw [happlied] at hstand
    have hrun : settings style path (.set key.name value) machine = .ok
        (style.done ("Set '" ++ key.name ++ "' to '" ++ value ++ "'.")
          (settingReport key.name value)) machine' := by
      rw [settings_set_eq]
      exact bind_eq_ok.mpr ⟨(), machine', onSettings_eq_ok.mpr hstore, rfl⟩
    exact ⟨_, machine', current.set key value, hrun, hstand.load_eq, set_set current key value⟩

/-- A machine with nothing but a settings file. -/
def withSettingsFile (text : String) : Machine :=
  .ofTree (.directory [("config.toml", .file text.toUTF8 0)])

theorem readText_withSettingsFile (text : String) :
    Os.readText "config.toml" (withSettingsFile text) = .ok text (withSettingsFile text) :=
  Os.orFail_eq_ok.mp (Project.readText_eq_ok.mpr
    ⟨rfl, _, _, rfl, Project.fromUTF8?_toUTF8 text⟩)

/-- A file that leaves out all settings but one. -/
theorem sets_iff_isLoadable_partialFile :
    (withSettingsFile "[general]\nlog_level = 'warn' # or info\n").faults = [] ∧
      Accepts "debug" .logLevel ∧
      Sets ⟨.standard, false⟩ "config.toml" .logLevel "debug"
        (withSettingsFile "[general]\nlog_level = 'warn' # or info\n") := by
  have hloadable : IsLoadable "[general]\nlog_level = 'warn' # or info\n" :=
    ⟨{ Settings.standard with logLevel := "warn" }, by decide +kernel, by decide⟩
  have haccepts : Accepts "debug" .logLevel := by
    show "debug" ∈ Settings.logLevels
    decide
  exact ⟨rfl, haccepts, (sets_iff_isLoadable (readText_withSettingsFile _) rfl haccepts).1.mpr
    hloadable⟩

/-- A level that does not exist cannot be replaced by one that does. -/
theorem not_sets_of_unknownLevel :
    Os.readText "config.toml" (withSettingsFile "[general]\nlog_level = 'loud'\n") =
        .ok "[general]\nlog_level = 'loud'\n"
          (withSettingsFile "[general]\nlog_level = 'loud'\n") ∧
      (withSettingsFile "[general]\nlog_level = 'loud'\n").faults = [] ∧
      Accepts "debug" .logLevel ∧
      ¬ Sets ⟨.standard, false⟩ "config.toml" .logLevel "debug"
        (withSettingsFile "[general]\nlog_level = 'loud'\n") := by
  have hparse : Settings.parse? "[general]\nlog_level = 'loud'\n" =
      some { Settings.standard with logLevel := "loud" } := by decide +kernel
  have hload : ¬ IsLoadable "[general]\nlog_level = 'loud'\n" := by
    rintro ⟨found, hfound, hflaw⟩
    obtain rfl := Option.some.inj (hparse.symm.trans hfound)
    exact absurd hflaw (by decide)
  refine ⟨readText_withSettingsFile _, rfl, by show "debug" ∈ Settings.logLevels; decide, ?_⟩
  rintro ⟨output, machine', changed, hrun, -⟩
  obtain ⟨failure, herror⟩ := settings_set_of_not_isLoadable ⟨.standard, false⟩
    (readText_withSettingsFile _) hload SettingKey.logLevel.name "debug"
  simp [herror] at hrun

end PluginWorkshop.Execution
