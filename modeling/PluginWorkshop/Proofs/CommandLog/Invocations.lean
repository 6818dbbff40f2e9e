import PluginWorkshop.Proofs.CommandLog.Confirming
import PluginWorkshop.Proofs.CommandLog.Loading

/-!
# Invocations that are told apart

The entry of a start is a table of named fields, of which those with a value are stored
(`StartOptions.commandEntry_eq`). All names are different, so the values can be read off the entry
(`eq_of_perm_given`), and two starts have the same entry only if they agree in everything that was
asked for (`StartOptions.entryFields_injective`): an invocation lets no other one pass
(`StartOptions.commandEntry_eq_iff`).
-/

namespace PluginWorkshop

namespace StartOptions

variable {fields fields' : List (String × Option String)}

/-! ## Tables of fields -/

theorem given_append (fields fields' : List (String × Option String)) :
    given (fields ++ fields') = given fields ++ given fields' :=
  List.filterMap_append

theorem mem_given {name value : String} :
    (name, value) ∈ given fields ↔ (name, some value) ∈ fields := by
  simp only [given, List.mem_filterMap, Option.map_eq_some_iff, Prod.mk.injEq]
  constructor
  · rintro ⟨⟨n, v⟩, hmem, _, rfl, rfl, rfl⟩
    exact hmem
  · exact fun h => ⟨_, h, value, rfl, rfl, rfl⟩

theorem map_given_sublist (fields : List (String × Option String)) :
    ((given fields).map Prod.fst).Sublist (fields.map Prod.fst) := by
  induction fields with
  | nil => exact .slnil
  | cons field fields ih =>
    obtain ⟨name, value | value⟩ := field
    · exact ih.cons _
    · exact ih.cons_cons _

/-- A table is known from the values that it gives, if its names are all different. -/
theorem eq_of_perm_given (hnames : fields.map Prod.fst = fields'.map Prod.fst)
    (hnodup : (fields.map Prod.fst).Nodup) (h : (given fields).Perm (given fields')) :
    fields = fields' := by
  induction fields generalizing fields' with
  | nil => exact (List.map_eq_nil_iff.mp hnames.symm).symm
  | cons field fields ih =>
    obtain ⟨name, value⟩ := field
    obtain ⟨⟨name', value'⟩, fields', rfl, hname, htail⟩ := List.map_eq_cons_iff.mp hnames.symm
    obtain rfl : name = name' := hname.symm
    obtain ⟨hnew, hnodup⟩ := List.nodup_cons.mp hnodup
    -- The name comes once in either table, so that its value can be looked up.
    have hvalue : ∀ {v : Option String} {table : List (String × Option String)} {x : String},
        name ∉ table.map Prod.fst → ((name, x) ∈ given ((name, v) :: table) ↔ v = some x) := by
      intro v table x hnot
      rw [mem_given, List.mem_cons, Prod.mk.injEq]
      refine ⟨fun hmem => ?_, fun hv => Or.inl ⟨rfl, hv.symm⟩⟩
      rcases hmem with hmem | hmem
      · exact hmem.2.symm
      · exact absurd (List.mem_map_of_mem hmem) hnot
    obtain rfl : value = value' :=
      Option.ext fun x => (hvalue hnew).symm.trans (h.mem_iff.trans (hvalue (htail ▸ hnew)))
    have hrest : (given fields).Perm (given fields') := by
      cases value with
      | none => exact h
      | some x => exact h.cons_inv
    rw [ih htail.symm hnodup hrest]

/-! ## The table of a start -/

/-- All that is asked for, under the names of the stored entry. -/
def entryFields (options : StartOptions) (directory : Path) : List (String × Option String) :=
  [("dir", some directory), ("slug", options.slug), ("namespace", options.nameSpace)] ++
    options.headerFields ++ [("ci", options.ci)] ++
    options.switches.map fun (name, isSet) => (name, if isSet then some "true" else none)

theorem given_switches (switches : List (String × Bool)) :
    given (switches.map fun (name, isSet) => (name, if isSet then some "true" else none)) =
      ((switches.filter Prod.snd).map Prod.fst).map (·, "true") := by
  induction switches with
  | nil => rfl
  | cons switch switches ih =>
    obtain ⟨name, isSet⟩ := switch
    cases isSet with
    | false => exact ih
    | true => exact congrArg ((name, "true") :: ·) ih

theorem commandEntry_eq (options : StartOptions) (directory : Path) :
    options.commandEntry directory =
      ⟨"start", [], .ofList (given (options.entryFields directory))⟩ := by
  rw [entryFields, given_append, given_switches]
  rfl

/-- The names of the table, whatever is asked for. -/
def entryNames : List String := ["dir", "slug", "namespace", "plugin_name", "plugin_description",
  "plugin_author", "plugin_author_uri", "plugin_uri", "ci", "skip-tests", "activate",
  "activate-network", "force"]

theorem nodup_entryNames : entryNames.Nodup := by decide

theorem map_entryFields (options : StartOptions) (directory : Path) :
    (options.entryFields directory).map Prod.fst = entryNames := rfl

theorem entryFields_injective {options options' : StartOptions} {directory directory' : Path}
    (h : options.entryFields directory = options'.entryFields directory') :
    directory = directory' ∧ options = options' := by
  have hswitch : ∀ {a b : Bool}, (if a then some "true" else none) =
      (if b then some "true" else none) → a = b := by decide
  cases options
  cases options'
  simp only [entryFields, headerFields, switches, List.map_cons, List.map_nil, List.cons_append,
    List.nil_append, List.cons.injEq, Prod.mk.injEq, true_and, and_true, Option.some.injEq] at h
  obtain ⟨hdirectory, hslug, hnameSpace, hname, hdescription, hauthor, hauthorUri, huri, hci, htests,
    hactivate, hnetwork, hforce⟩ := h
  rw [hdirectory, hslug, hnameSpace, hname, hdescription, hauthor, hauthorUri, huri, hci,
    hswitch htests, hswitch hactivate, hswitch hnetwork, hswitch hforce]
  exact ⟨rfl, rfl⟩

theorem commandEntry_injective {options options' : StartOptions} {directory directory' : Path}
    (h : options.commandEntry directory = options'.commandEntry directory') :
    directory = directory' ∧ options = options' := by
  rw [commandEntry_eq, commandEntry_eq, CommandEntry.mk.injEq] at h
  have hnodup : ∀ options directory,
      ((given (entryFields options directory)).map Prod.fst).Nodup := fun options directory =>
    (map_given_sublist _).nodup (map_entryFields options directory ▸ nodup_entryNames)
  have hperm : (given (options.entryFields directory)).Perm
      (given (options'.entryFields directory')) := by
    refine (OptionMap.perm_ofList (hnodup _ _)).symm.trans ?_
    rw [h.2.2]
    exact OptionMap.perm_ofList (hnodup _ _)
  exact entryFields_injective (eq_of_perm_given rfl nodup_entryNames hperm)

end StartOptions

namespace CommandLog

variable {log : CommandLog} {machine : Machine} {entry : CommandEntry} {time : Time}

/-- A log that holds an entry lets an invocation pass exactly if it is the same, and not too late. -/
theorem outcome_eq_repeated_iff (h : log.Holds (some (entry, time)) machine)
    (entry' : CommandEntry) (question : String) (answer : Except PluginError Bool) :
    outcome (log.confirm entry' (ask question answer)) machine = .ok .repeated ↔
      machine.now - time ≤ log.lifetime ∧ entry = entry' := by
  have hheld : (log.fresh machine.now (some (entry, time))).map Prod.fst = some entry' ↔
      machine.now - time ≤ log.lifetime ∧ entry = entry' := by
    rw [fresh_some]
    split_ifs with hfresh <;> simp [hfresh]
  rw [← hheld]
  by_cases hfresh : (log.fresh machine.now (some (entry, time))).map Prod.fst = some entry'
  · obtain ⟨tree, hrun, -⟩ := confirm_of_fresh h (ask question answer) hfresh
    exact iff_of_true (outcome_of_ok hrun) hfresh
  · obtain ⟨tree, houtcome, -, -⟩ := confirm_of_not_fresh h question answer hfresh
    refine iff_of_false (fun hrepeated => ?_) hfresh
    rw [houtcome] at hrepeated
    rcases answer with e | (_ | _) <;> cases hrepeated

end CommandLog

namespace StartOptions

/-- Two starts have the same entry exactly if they are for the same directory and agree in every
option. That is so as well once one of the entries has been stored and read back, so that a log that
holds it lets no other start pass. -/
theorem commandEntry_eq_iff (options options' : StartOptions) (directory directory' : Path) :
    (options.commandEntry directory = options'.commandEntry directory' ↔
      directory = directory' ∧ options = options') ∧
    (∀ (log : CommandLog) (machine recorded : Machine) (now : Time),
      log.record (options.commandEntry directory) machine = .ok () recorded →
      now - machine.now ≤ log.lifetime →
      ∃ entry, log.loadAt now recorded = .ok (some entry) recorded ∧
        (entry = options'.commandEntry directory' ↔ directory = directory' ∧ options = options')) ∧
    ∀ (log : CommandLog) (machine : Machine) (time : Time) (question : String)
      (answer : Except PluginError Bool),
      log.Holds (some (options.commandEntry directory, time)) machine →
      (outcome (log.confirm (options'.commandEntry directory') (ask question answer)) machine =
        .ok .repeated ↔
        machine.now - time ≤ log.lifetime ∧ directory = directory' ∧ options = options') := by
  have heq : options.commandEntry directory = options'.commandEntry directory' ↔
      directory = directory' ∧ options = options' := by
    refine ⟨commandEntry_injective, ?_⟩
    rintro ⟨rfl, rfl⟩
    rfl
  refine ⟨heq, fun log machine recorded now hrecord hfresh =>
    ⟨_, CommandLog.loadAt_of_record hrecord hfresh, heq⟩, ?_⟩
  intro log machine time question answer hholds
  rw [CommandLog.outcome_eq_repeated_iff hholds, heq]

/-- A start with an empty slug is another one than the start without a slug. -/
theorem commandEntry_eq_iff_emptySlug :
    let log := CommandLog.rootLog
    let machine := Machine.ofTree (.directory [])
    let options : StartOptions :=
      ⟨none, none, some "My Plugin", none, none, none, none, true, none, false, false, false⟩
    let options' : StartOptions := { options with slug := some "" }
    options.commandEntry "/srv" ≠ options'.commandEntry "/srv" ∧
      ∃ recorded, log.record (options.commandEntry "/srv") machine = .ok () recorded ∧
        (∃ entry, log.loadAt 0 recorded = .ok (some entry) recorded ∧
          entry = options.commandEntry "/srv" ∧ entry ≠ options'.commandEntry "/srv") ∧
        outcome (log.confirm (options.commandEntry "/srv") (ask "Continue?" (.ok false))) recorded =
          .ok .repeated ∧
        outcome (log.confirm (options'.commandEntry "/srv") (ask "Continue?" (.ok false))) recorded ≠
          .ok .repeated := by
  intro log machine options options'
  have hne : ¬ (("/srv" : Path) = "/srv" ∧ options = options') := by decide
  obtain ⟨-, hself, hrepeats⟩ := commandEntry_eq_iff options options "/srv" "/srv"
  obtain ⟨heq, hother, hasks⟩ := commandEntry_eq_iff options options' "/srv" "/srv"
  obtain ⟨tree, hrecord, hholds⟩ :=
    CommandLog.record_of_holds CommandLog.holds_rootLog (options.commandEntry "/srv")
  have hfresh : (0 : Time) - machine.now ≤ log.lifetime := by decide
  refine ⟨mt heq.mp hne, machine.withTree tree, hrecord, ?_, ?_, ?_⟩
  · obtain ⟨entry, hload, hentry⟩ := hother log machine _ 0 hrecord hfresh
    obtain ⟨entry', hload', hentry'⟩ := hself log machine _ 0 hrecord hfresh
    obtain rfl : entry = entry' := by simpa [hload] using hload'
    exact ⟨entry, hload, hentry'.mpr ⟨rfl, rfl⟩, mt hentry.mp hne⟩
  · exact (hrepeats log _ 0 "Continue?" (.ok false) hholds).mpr ⟨hfresh, rfl, rfl⟩
  · exact mt (hasks log _ 0 "Continue?" (.ok false) hholds).mp fun h => hne h.2

end StartOptions

end PluginWorkshop
