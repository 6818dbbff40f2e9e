import PluginWorkshop.CommandLine.Execution
import PluginWorkshop.Proofs.CommandLog.Storing

/-!
# What the log lets pass

The calls to a log make up a history (`CommandLog.History`), in which others may act on the machine
as long as they leave the log alone. The log holds the invocation of the last call if that was
refused, and nothing otherwise (`holds_pending`); so an invocation passes without a question exactly
if it repeats the call before it, which was refused a short while ago
(`outcome_of_history`), and WP-CLI is started for no other reason than that, a yes, or because no
confirmation was wanted.
-/

namespace PluginWorkshop

namespace Machine

/-- The machine after another question. -/
def withQuestion (machine : Machine) (question : String) : Machine :=
  { machine with questions := machine.questions ++ [question] }

variable (machine : Machine) (question : String)

@[simp] theorem withQuestion_questions :
    (machine.withQuestion question).questions = machine.questions ++ [question] := rfl

@[simp] theorem withQuestion_calls :
    (machine.withQuestion question).calls = machine.calls := rfl

@[simp] theorem withTree_questions (tree : FileTree) :
    (machine.withTree tree).questions = machine.questions := rfl

end Machine

/-- What the operator's answer comes to. -/
def decided : Except PluginError Bool → Except PluginError Confirmation
  | .ok true => .ok .prompted
  | .ok false => .ok .declined
  | .error e => .error e

namespace CommandLog

variable {log : CommandLog} {stored : Option (CommandEntry × Time)} {machine machine' : Machine}
  {entry : CommandEntry} {question : String} {answer : Except PluginError Bool}

/-! ## One call -/

theorem Holds.withQuestion (h : log.Holds stored machine) (question : String) :
    log.Holds stored (machine.withQuestion question) :=
  ⟨h.faults, h.distinct, h.file⟩

/-- An invocation that the log still holds passes, and the log is empty afterwards. -/
theorem confirm_of_fresh (h : log.Holds stored machine) (prompt : Action Bool)
    (hfresh : (log.fresh machine.now stored).map Prod.fst = some entry) : ∃ tree,
    log.confirm entry prompt machine = .ok .repeated (machine.withTree tree) ∧
      log.Holds none (machine.withTree tree) := by
  obtain ⟨tree, hload, hholds⟩ := load_of_holds h
  obtain ⟨tree', hclear, hnone⟩ := clear_of_holds hholds
  refine ⟨tree', ?_, hnone⟩
  rw [confirm, bind_of_ok hload, if_pos hfresh, bind_of_ok hclear]
  rfl

/-- For any other invocation the operator's answer decides. Unless that is a yes, the log holds the
invocation afterwards. -/
theorem confirm_of_not_fresh (h : log.Holds stored machine) (question : String)
    (answer : Except PluginError Bool)
    (hfresh : (log.fresh machine.now stored).map Prod.fst ≠ some entry) : ∃ tree,
    outcome (log.confirm entry (ask question answer)) machine = decided answer ∧
      after (log.confirm entry (ask question answer)) machine =
        (machine.withTree tree).withQuestion question ∧
      log.Holds (if decided answer = .ok .prompted then none else some (entry, machine.now))
        ((machine.withTree tree).withQuestion question) := by
  obtain ⟨tree, hload, hholds⟩ := load_of_holds h
  obtain ⟨tree', hrecord, hentry⟩ := record_of_holds hholds entry
  have hasked := hentry.withQuestion question
  rw [outcome, after, confirm, bind_of_ok hload, if_neg hfresh, bind_of_ok hrecord]
  cases answer with
  | error e => exact ⟨tree', rfl, rfl, hasked⟩
  | ok yes =>
    cases yes with
    | false => exact ⟨tree', rfl, rfl, hasked⟩
    | true =>
      obtain ⟨tree'', hclear, hnone⟩ := clear_of_holds hasked
      have hrun : (ask question (.ok true) >>= fun yes =>
          if yes = true then log.clear >>= fun _ => pure Confirmation.prompted
          else pure Confirmation.declined) ((machine.withTree tree).withTree tree') =
          .ok .prompted ((machine.withTree tree'').withQuestion question) :=
        bind_eq_ok.mpr ⟨true, _, rfl, bind_eq_ok.mpr ⟨(), _, hclear, rfl⟩⟩
      rw [hrun]
      exact ⟨tree'', rfl, rfl, hnone⟩

/-! ## Histories -/

/-- A call for the confirmation of an invocation. -/
structure Consultation where
  entry : CommandEntry
  time : Time
  question : String
  /-- What the operator answers if asked. -/
  answer : Except PluginError Bool
  outcome : Except PluginError Confirmation
  /-- The questions that were put to the operator. -/
  asked : List String

namespace Consultation

/-- The operator said no, or could not be asked. -/
def isRefused (call : Consultation) : Bool :=
  match call.outcome with
  | .ok .declined | .error _ => true
  | .ok _ => false

def isRepeated (call : Consultation) : Bool :=
  match call.outcome with
  | .ok .repeated => true
  | _ => false

end Consultation

/-- The call for the confirmation of an invocation on a machine. -/
def consult (log : CommandLog) (entry : CommandEntry) (question : String)
    (answer : Except PluginError Bool) (machine : Machine) : Consultation where
  entry := entry
  time := machine.now
  question := question
  answer := answer
  outcome := outcome (log.confirm entry (ask question answer)) machine
  asked := (after (log.confirm entry (ask question answer)) machine).questions.drop
    machine.questions.length

/-- The calls to a log that was empty, and a machine to which they may have led. -/
inductive History (log : CommandLog) : List Consultation → Machine → Prop where
  | start {machine : Machine} (h : log.Holds none machine) : History log [] machine
  | meanwhile {calls : List Consultation} {machine machine' : Machine}
      (h : History log calls machine) (hleft : log.LeftAlone machine machine') :
      History log calls machine'
  | call {calls : List Consultation} {machine : Machine} (h : History log calls machine)
      (entry : CommandEntry) (question : String) (answer : Except PluginError Bool) :
      History log (calls ++ [log.consult entry question answer machine])
        (after (log.confirm entry (ask question answer)) machine)

/-- The last call was refused, not too long ago, and was for the same invocation. -/
def Repeats (log : CommandLog) (calls : List Consultation) (entry : CommandEntry) (time : Time) :
    Prop :=
  ∃ last, calls.getLast? = some last ∧ last.isRefused = true ∧ last.entry = entry ∧
    time - last.time ≤ log.lifetime

/-- What the calls leave in the log: the invocation of the last one if it was refused. -/
def pending (calls : List Consultation) : Option (CommandEntry × Time) :=
  (calls.getLast?.filter Consultation.isRefused).map fun call => (call.entry, call.time)

variable {calls before rest : List Consultation} {call : Consultation}

theorem fresh_pending_iff (time : Time) :
    (log.fresh time (pending calls)).map Prod.fst = some entry ↔ log.Repeats calls entry time := by
  rw [pending, Repeats]
  cases calls.getLast? with
  | none => simp [fresh]
  | some last =>
    cases hrefused : last.isRefused with
    | false => simp [fresh, hrefused]
    | true => simp [fresh, hrefused, Option.filter_some, and_comm]

theorem pending_concat (calls : List Consultation) (call : Consultation) :
    pending (calls ++ [call]) = if call.isRefused then some (call.entry, call.time) else none := by
  rw [pending, List.getLast?_concat]
  cases hrefused : call.isRefused <;> simp [hrefused]

/-- A call that repeats the one before it passes without a question; in every other call the
operator is asked once and decides. -/
theorem consult_of_holds (h : log.Holds (pending calls) machine) (entry : CommandEntry)
    (question : String) (answer : Except PluginError Bool) :
    (log.Repeats calls entry machine.now →
      (log.consult entry question answer machine).outcome = .ok .repeated ∧
        (log.consult entry question answer machine).asked = []) ∧
    (¬ log.Repeats calls entry machine.now →
      (log.consult entry question answer machine).outcome = decided answer ∧
        (log.consult entry question answer machine).asked = [question]) ∧
    log.Holds (pending (calls ++ [log.consult entry question answer machine]))
      (after (log.confirm entry (ask question answer)) machine) := by
  rw [← fresh_pending_iff, pending_concat]
  by_cases hfresh : (log.fresh machine.now (pending calls)).map Prod.fst = some entry
  · obtain ⟨tree, hrun, hnone⟩ := confirm_of_fresh h (ask question answer) hfresh
    have houtcome : (log.consult entry question answer machine).outcome = .ok .repeated :=
      outcome_of_ok hrun
    refine ⟨fun _ => ⟨houtcome, ?_⟩, fun hnot => absurd hfresh hnot, ?_⟩
    · rw [consult, after_of_ok hrun, Machine.withTree_questions, List.drop_length]
    · rw [Consultation.isRefused, houtcome, after_of_ok hrun]
      exact hnone
  · obtain ⟨tree, houtcome, hafter, hholds⟩ := confirm_of_not_fresh h question answer hfresh
    refine ⟨fun hnot => absurd hnot hfresh, fun _ => ⟨houtcome, ?_⟩, ?_⟩
    · rw [consult, hafter, Machine.withQuestion_questions, Machine.withTree_questions,
        List.drop_left]
    · rw [hafter, Consultation.isRefused, show (log.consult entry question answer machine).outcome =
        decided answer from houtcome]
      rcases answer with e | (_ | _) <;> exact hholds

/-- The log holds the invocation of the last call if that was refused, and nothing otherwise. -/
theorem holds_pending (h : log.History calls machine) : log.Holds (pending calls) machine := by
  induction h with
  | start h => exact h
  | meanwhile h hleft ih => exact ih.of_leftAlone hleft
  | call h entry question answer ih => exact (consult_of_holds ih entry question answer).2.2

/-- Every call of a history was made on a machine to which the calls before it had led. -/
theorem exists_consult (h : log.History calls machine) (hsplit : calls = before ++ call :: rest) :
    ∃ machine₀, log.History before machine₀ ∧
      call = log.consult call.entry call.question call.answer machine₀ := by
  induction h generalizing rest with
  | start h => simp at hsplit
  | meanwhile h hleft ih => exact ih hsplit
  | @call calls machine h entry question answer ih =>
    rcases List.eq_nil_or_concat rest with rfl | ⟨rest, last, rfl⟩
    · obtain ⟨rfl, hcall⟩ := List.append_inj' hsplit rfl
      obtain rfl := List.singleton_inj.mp hcall
      exact ⟨machine, h, rfl⟩
    · rw [List.concat_eq_append, ← List.cons_append, ← List.append_assoc] at hsplit
      exact ih (List.append_inj' hsplit rfl).1

/-- A refused call lets at most one later call pass: the calls that passed, and the one that may, are
no more than those refused. -/
theorem countP_isRepeated_le (h : log.History calls machine) :
    calls.countP Consultation.isRepeated + (pending calls).toList.length ≤
      calls.countP Consultation.isRefused := by
  induction h with
  | start h => simp [pending]
  | meanwhile h hleft ih => exact ih
  | @call calls machine h entry question answer ih =>
    obtain ⟨hpass, hask, -⟩ := consult_of_holds (holds_pending h) entry question answer
    rw [pending_concat, List.countP_append, List.countP_append, List.countP_singleton,
      List.countP_singleton]
    by_cases hrepeats : log.Repeats calls entry machine.now
    · have hpending : (pending calls).toList.length = 1 := by
        have hsome := (fresh_pending_iff machine.now).mpr hrepeats
        cases hp : pending calls with
        | none => simp [hp, fresh] at hsome
        | some held => rfl
      simp only [Consultation.isRepeated, Consultation.isRefused, (hpass hrepeats).1]
      simp
      omega
    · simp only [Consultation.isRepeated, Consultation.isRefused, (hask hrepeats).1]
      rcases answer with e | (_ | _) <;> simp [decided] <;> omega

/-! ## Starting a plugin -/

theorem calls_after_confirm (h : log.Holds stored machine) (entry : CommandEntry)
    (question : String) (answer : Except PluginError Bool) :
    (after (log.confirm entry (ask question answer)) machine).calls = machine.calls := by
  by_cases hfresh : (log.fresh machine.now stored).map Prod.fst = some entry
  · obtain ⟨tree, hrun, -⟩ := confirm_of_fresh h (ask question answer) hfresh
    rw [after_of_ok hrun, Machine.withTree_calls]
  · obtain ⟨tree, -, hafter, -⟩ := confirm_of_not_fresh h question answer hfresh
    rw [hafter, Machine.withQuestion_calls, Machine.withTree_calls]

variable {style : Style} {tools : Execution.StartTools} {options : StartOptions} {directory : Path}
  {yes : Bool}

/-- Without a confirmation nothing is started. -/
theorem exists_isConfirmed_of_calls_ne
    (hcalls : (after (Execution.confirmStart tools log options directory yes) machine).calls =
      machine.calls)
    (hne : (after (Execution.startConfirmed style tools log options directory yes) machine).calls ≠
      machine.calls) :
    ∃ confirmation, outcome (Execution.confirmStart tools log options directory yes) machine =
      .ok confirmation ∧ confirmation.isConfirmed = true := by
  rw [Execution.startConfirmed] at hne
  cases hrun : Execution.confirmStart tools log options directory yes machine with
  | error e machine₁ =>
    have htask : (Execution.confirmStart tools log options directory yes).asTask machine =
        .error (.project e) machine₁ := by
      rw [Action.asTask, EStateM.adaptExcept, hrun]
    rw [after_bind_of_error htask, ← after_of_error hrun] at hne
    exact absurd hcalls hne
  | ok confirmation machine₁ =>
    have htask : (Execution.confirmStart tools log options directory yes).asTask machine =
        .ok confirmation machine₁ := by
      rw [Action.asTask, EStateM.adaptExcept, hrun]
    refine ⟨confirmation, outcome_of_ok hrun, ?_⟩
    by_contra hconfirmed
    rw [after_bind_of_ok htask, if_neg hconfirmed] at hne
    exact hne ((after_of_ok hrun).symm ▸ hcalls)

theorem of_calls_startConfirmed_ne (h : log.History calls machine)
    (hprompt : tools.prompt options = ask question answer)
    (hne : (after (Execution.startConfirmed style tools log options directory yes) machine).calls ≠
      machine.calls) :
    yes = true ∨ answer = .ok true ∨
      log.Repeats calls (options.commandEntry directory) machine.now := by
  cases yes with
  | true => exact Or.inl rfl
  | false =>
    have hconfirm : Execution.confirmStart tools log options directory false =
        log.confirm (options.commandEntry directory) (ask question answer) := by
      rw [Execution.confirmStart, hprompt]
      rfl
    have hholds := holds_pending h
    obtain ⟨confirmation, houtcome, hconfirmed⟩ := exists_isConfirmed_of_calls_ne
      (hconfirm ▸ calls_after_confirm hholds _ question answer) hne
    rw [hconfirm] at houtcome
    by_cases hrepeats : log.Repeats calls (options.commandEntry directory) machine.now
    · exact Or.inr (Or.inr hrepeats)
    · have hdecided := ((consult_of_holds hholds (options.commandEntry directory) question
        answer).2.1 hrepeats).1
      rw [consult, houtcome] at hdecided
      rcases answer with e | (_ | _)
      · cases hdecided
      · obtain rfl := Except.ok.inj hdecided
        exact absurd hconfirmed (by decide)
      · exact Or.inr (Or.inl rfl)

/-! ## All calls -/

/-- In every history of calls to a log that was empty, a call passes without a question exactly if
it repeats the call before it, which was refused not too long ago; in every other call the operator
is asked once and decides. So a refused call lets at most one later call pass, and WP-CLI is started
only if no confirmation is wanted, if the operator says yes, or if the call is such a repetition. -/
theorem outcome_of_history (h : log.History calls machine) :
    (∀ before call rest, calls = before ++ call :: rest →
      (call.outcome = .ok .repeated ↔ log.Repeats before call.entry call.time) ∧
      (log.Repeats before call.entry call.time → call.asked = []) ∧
      (¬ log.Repeats before call.entry call.time →
        call.asked = [call.question] ∧ call.outcome = decided call.answer)) ∧
    calls.countP Consultation.isRepeated ≤ calls.countP Consultation.isRefused ∧
    ∀ style tools options directory yes question answer,
      tools.prompt options = ask question answer →
      (after (Execution.startConfirmed style tools log options directory yes) machine).calls ≠
        machine.calls →
      yes = true ∨ answer = .ok true ∨
        log.Repeats calls (options.commandEntry directory) machine.now := by
  refine ⟨fun before call rest hsplit => ?_, ?_, fun _ _ _ _ _ _ _ => of_calls_startConfirmed_ne h⟩
  · obtain ⟨machine₀, hbefore, hcall⟩ := exists_consult h hsplit
    obtain ⟨hpass, hask, -⟩ := consult_of_holds (holds_pending hbefore) call.entry call.question
      call.answer
    have htime : call.time = machine₀.now := congrArg Consultation.time hcall
    rw [← hcall, ← htime] at hpass hask
    refine ⟨⟨fun houtcome => ?_, fun hrepeats => (hpass hrepeats).1⟩, fun hrepeats =>
      (hpass hrepeats).2, fun hnot => (hask hnot).symm⟩
    by_contra hnot
    rw [(hask hnot).1] at houtcome
    rcases hanswer : call.answer with e | (_ | _) <;> rw [hanswer] at houtcome <;> cases houtcome
  · have := countP_isRepeated_le h
    omega

/-- A log at the root. -/
def rootLog : CommandLog := ⟨"/log.json", defaultLifetime⟩

/-- On a machine without files nothing is stored in it. -/
theorem holds_rootLog : rootLog.Holds none (Machine.ofTree (.directory [])) :=
  ⟨rfl, .directory (by simp) (by simp), [], "log.json", by decide, rfl⟩

/-- An invocation without arguments. -/
def bareEntry : CommandEntry := ⟨"start", [], .empty⟩

/-- The second of two equal calls passes after the first was declined. -/
theorem outcome_of_history_declined_once :
    let machine := Machine.ofTree (.directory [])
    let declining := rootLog.confirm bareEntry (ask "Continue?" (.ok false))
    let first := rootLog.consult bareEntry "Continue?" (.ok false) machine
    let second := rootLog.consult bareEntry "Continue?" (.ok false) (after declining machine)
    rootLog.History [first, second] (after declining (after declining machine)) ∧
      first.outcome = .ok .declined ∧ second.outcome = .ok .repeated ∧ second.asked = [] := by
  intro machine declining first second
  have hhistory : rootLog.History [first, second] (after declining (after declining machine)) :=
    ((History.start holds_rootLog).call bareEntry _ _).call bareEntry _ _
  have hrepeats : rootLog.Repeats [first] second.entry second.time :=
    ⟨first, rfl, by decide, rfl, by decide⟩
  have hcalls := (outcome_of_history hhistory).1
  obtain ⟨-, -, hdeclined⟩ := hcalls [] first [second] rfl
  obtain ⟨hpass, hask, -⟩ := hcalls [first] second [] rfl
  exact ⟨hhistory, (hdeclined (by simp [Repeats])).2, hpass.mpr hrepeats, hask hrepeats⟩

end CommandLog

end PluginWorkshop
