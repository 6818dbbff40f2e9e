import PluginWorkshop.Proofs.Machine.Entries
import PluginWorkshop.Proofs.Project.Resolving
import PluginWorkshop.Proofs.Toml.Documents
import PluginWorkshop.Settings.File

/-!
# Settings stored and loaded

Settings are read back from the text under which they are stored, whatever stands in them
(`parse?_render`). On a machine, settings stand in a file (`Settings.Stand`) exactly if they are
loaded from it (`load_eq_ok`). Storing settings that have no flaw makes them stand there
(`save_ok`); settings with a flaw are refused before anything is written (`save_error`).
-/

namespace PluginWorkshop

/-- Whether the system refused an operation on the file. -/
def SettingsError.isRefusal : SettingsError → Bool
  | unreadable _ | noDirectory _ | unwritable _ => true
  | _ => false

namespace Settings

open Toml (Section Value)

variable {path : Path} {machine machine' : Machine} {settings : Settings} {text : String}

/-! ## The document -/

theorem isBare_of_mem_toSections (settings : Settings) : ∀ s ∈ settings.toSections, s.IsBare := by
  intro s hs
  rw [toSections, List.mem_cons, List.mem_cons, List.mem_singleton] at hs
  obtain rfl | rfl | rfl := hs
  all_goals exact ⟨by dsimp only; decide, by simp; decide⟩

theorem texts?_array (texts : List String) :
    Value.texts? (.array (texts.map .string)) = some texts := by
  rw [Value.texts?]
  induction texts with
  | nil => rfl
  | cons text texts ih => simp [List.mapM_cons, Value.text?, ih]

/-- The table in which the settings are stored. -/
def document (settings : Settings) : Toml.Table := [
  ("general", .table .header [
    ("default_format", .string settings.defaultFormat), ("log_level", .string settings.logLevel)]),
  ("composer", .table .header [
    ("binary", .string settings.composerBinary),
    ("install_args", .array (settings.installArgs.map .string))]),
  ("wp", .table .header [("binary", .string settings.wpBinary)])]

theorem ofStatements?_toSections (settings : Settings) :
    Toml.ofStatements? (settings.toSections.flatMap Section.statements) =
      some settings.document := rfl

theorem ofDocument?_document (settings : Settings) :
    ofDocument? settings.document = some settings := by
  have htexts := texts?_array settings.installArgs
  simp [ofDocument?, document, sectionFields?, Toml.Table.get?, fieldOr, Value.text?, htexts]

/-- Settings are read back from the text under which they are stored. -/
theorem parse?_render (settings : Settings) : parse? settings.render = some settings := by
  rw [parse?, render, Toml.parse?_render settings.isBare_of_mem_toSections,
    ofStatements?_toSections]
  exact ofDocument?_document settings

/-! ## Settings without a flaw -/

theorem check_eq_ok : settings.check = .ok () ↔ settings.flaw? = none := by
  rw [check]
  cases settings.flaw? <;> simp

theorem flaw?_eq_none_iff : settings.flaw? = none ↔
    settings.defaultFormat ∈ formats ∧ settings.logLevel ∈ logLevels ∧
      Text.isAllBlank settings.composerBinary.toList = false ∧ settings.installArgs ≠ [] ∧
      Text.isAllBlank settings.wpBinary.toList = false := by
  rw [flaw?]
  split_ifs <;> simp_all

theorem flaw?_standard : standard.flaw? = none := by decide

/-! ## The file -/

/-- Settings without a flaw stand in a file, or there is no file and they are the standard ones. -/
def Stand (path : Path) (settings : Settings) (machine : Machine) : Prop :=
  (Os.fileExists machine path = false ∧ settings = standard) ∨
    ∃ text, Os.readText path machine = .ok text machine ∧ parse? text = some settings ∧
      settings.flaw? = none

theorem fileExists_of_readText (h : Os.readText path machine = .ok text machine) :
    Os.fileExists machine path = true := by
  obtain ⟨-, content, modified, hentry, -⟩ := Project.readText_eq_ok.mp (Os.orFail_eq_ok.mpr h)
  rw [Os.fileExists, hentry]
  rfl

theorem readText_machine (h : Os.readText path machine = .ok text machine') : machine = machine' :=
  (Os.look_eq_ok.mp h).2

theorem load_of_not_fileExists (h : Os.fileExists machine path = false) :
    load path machine = .ok standard machine := by
  have hget : (getThe Machine : SettingsAction Machine) machine = .ok machine machine := rfl
  rw [load, bind_of_ok hget, if_neg (by simp [h])]
  rfl

theorem load_of_readText_error {e : OsError} (hexists : Os.fileExists machine path = true)
    (h : Os.readText path machine = .error e machine') :
    load path machine = .error (.unreadable e) machine' := by
  have hget : (getThe Machine : SettingsAction Machine) machine = .ok machine machine := rfl
  rw [load, bind_of_ok hget, if_pos hexists]
  exact bind_eq_error.mpr (Or.inl (adaptExcept_eq_error.mpr ⟨e, h, rfl⟩))

theorem load_of_readText (h : Os.readText path machine = .ok text machine) :
    load path machine = match parse? text with
      | none => .error .malformed machine
      | some settings => match settings.flaw? with
        | none => .ok settings machine
        | some flaw => .error flaw machine := by
  have hget : (getThe Machine : SettingsAction Machine) machine = .ok machine machine := rfl
  rw [load, bind_of_ok hget, if_pos (fileExists_of_readText h),
    bind_of_ok (adaptExcept_eq_ok.mpr h)]
  cases hparse : parse? text with
  | none => rfl
  | some settings =>
    cases hflaw : settings.flaw? <;> simp only [check, hflaw] <;> rfl

/-- What loading gives, according to what is in the file. -/
theorem load_cases (path : Path) (machine : Machine) :
    (Os.fileExists machine path = false ∧ load path machine = .ok standard machine) ∨
      (∃ e, load path machine = .error (.unreadable e) machine) ∨
      ∃ text, Os.readText path machine = .ok text machine := by
  cases hexists : Os.fileExists machine path with
  | false => exact Or.inl ⟨rfl, load_of_not_fileExists hexists⟩
  | true =>
    refine Or.inr ?_
    cases hread : Os.readText path machine with
    | ok text machine' => exact Or.inr ⟨text, by rw [← readText_machine hread]⟩
    | error e machine' =>
      obtain rfl := (Os.onlyLooks_look _).of_error hread
      exact Or.inl ⟨e, load_of_readText_error hexists hread⟩

theorem Stand.load_eq (h : Stand path settings machine) :
    load path machine = .ok settings machine := by
  rcases h with ⟨hnone, rfl⟩ | ⟨text, hread, hparse, hflaw⟩
  · exact load_of_not_fileExists hnone
  · simp only [load_of_readText hread, hparse, hflaw]

/-- Settings are loaded from a file exactly if they stand there. -/
theorem load_eq_ok : load path machine = .ok settings machine ↔ Stand path settings machine := by
  refine ⟨fun h => ?_, Stand.load_eq⟩
  rcases load_cases path machine with ⟨hnone, hload⟩ | ⟨e, hload⟩ | ⟨text, hread⟩
  · rw [hload] at h
    cases h
    exact Or.inl ⟨hnone, rfl⟩
  · simp [hload] at h
  · rw [load_of_readText hread] at h
    cases hparse : parse? text with
    | none => simp [hparse] at h
    | some found =>
      cases hflaw : found.flaw? with
      | some flaw => simp [hparse, hflaw] at h
      | none =>
        simp only [hparse, hflaw] at h
        cases h
        exact Or.inr ⟨text, hread, hparse, hflaw⟩

theorem onlyLooks_load (path : Path) : OnlyLooks (load path) := by
  intro machine
  rcases load_cases path machine with ⟨-, hload⟩ | ⟨e, hload⟩ | ⟨text, hread⟩
  · exact after_of_ok hload
  · exact after_of_error hload
  · rw [after, load_of_readText hread]
    cases parse? text with
    | none => rfl
    | some settings => cases hflaw : settings.flaw? <;> simp only [hflaw]

/-- Makes the directory of the file. -/
def makeParent (path : Path) : SettingsAction Unit :=
  match Path.parent? path with
  | some parent => EStateM.adaptExcept .noDirectory (Os.makeDirectoryAll parent)
  | none => pure ()

theorem save_eq (path : Path) (settings : Settings) : save path settings = (do
    MonadExcept.ofExcept settings.check
    makeParent path
    EStateM.adaptExcept .unwritable (Os.writeFile path settings.render)) := by
  rw [save, makeParent]
  cases Path.parent? path <;> rfl

/-- Settings that are stored have no flaw, and stand in the file. -/
theorem save_ok (h : save path settings machine = .ok () machine') :
    settings.flaw? = none ∧ Stand path settings machine' := by
  rw [save_eq] at h
  obtain ⟨_, _, hcheck, h⟩ := bind_eq_ok.mp h
  obtain ⟨_, machine₁, -, hwrite⟩ := bind_eq_ok.mp h
  have hflaw := check_eq_ok.mp (ofExcept_eq_ok.mp hcheck).1
  have hentry := Os.entryAt_writeFile (adaptExcept_eq_ok.mp hwrite)
  have hread := Project.readText_eq_ok.mpr
    ⟨rfl, _, _, hentry, Project.fromUTF8?_toUTF8 settings.render⟩
  exact ⟨hflaw, Or.inr ⟨_, Os.orFail_eq_ok.mp hread, parse?_render settings, hflaw⟩⟩

theorem makeParent_error {e : SettingsError} (h : makeParent path machine = .error e machine') :
    e.isRefusal = true := by
  rw [makeParent] at h
  cases hparent : Path.parent? path with
  | none => simp only [hparent] at h; cases h
  | some parent =>
    simp only [hparent] at h
    obtain ⟨_, -, rfl⟩ := adaptExcept_eq_error.mp h
    rfl

/-- Settings that are not stored have a flaw, or the system refused to store them. -/
theorem save_error {e : SettingsError} (h : save path settings machine = .error e machine') :
    settings.flaw? = some e ∧ machine' = machine ∨ e.isRefusal = true := by
  rw [save_eq] at h
  rcases bind_eq_error.mp h with hcheck | ⟨_, machine₁, -, h⟩
  · refine Or.inl ?_
    rw [check] at hcheck
    cases hflaw : settings.flaw? with
    | none => simp only [hflaw] at hcheck; cases hcheck
    | some flaw => simp only [hflaw] at hcheck; cases hcheck; exact ⟨rfl, rfl⟩
  · refine Or.inr ?_
    rcases bind_eq_error.mp h with hparent | ⟨_, machine₂, -, hwrite⟩
    · exact makeParent_error hparent
    · obtain ⟨_, -, rfl⟩ := adaptExcept_eq_error.mp hwrite
      rfl

/-- Settings without a flaw can be stored in a file that is there, where nothing fails. -/
theorem exists_save (hread : Os.readText path machine = .ok text machine)
    (hfaults : machine.faults = []) (hflaw : settings.flaw? = none) :
    ∃ machine', save path settings machine = .ok () machine' := by
  obtain ⟨-, content, modified, hentry, -⟩ := Project.readText_eq_ok.mp (Os.orFail_eq_ok.mpr hread)
  obtain ⟨machine', hwrite, -⟩ := Os.exists_writeFile hentry hfaults settings.render
  have hparent : makeParent path machine = .ok () machine := by
    rw [makeParent]
    cases hparent : Path.parent? path with
    | none => rfl
    | some parent =>
      exact adaptExcept_eq_ok.mpr (Os.makeDirectoryAll_of_isDirectory hfaults
        (Os.isDirectory_parent hparent hentry))
  refine ⟨machine', ?_⟩
  rw [save_eq]
  refine bind_eq_ok.mpr ⟨(), machine, ofExcept_eq_ok.mpr ⟨check_eq_ok.mpr hflaw, rfl⟩, ?_⟩
  exact bind_eq_ok.mpr ⟨(), machine, hparent, adaptExcept_eq_ok.mpr hwrite⟩

end Settings

end PluginWorkshop
