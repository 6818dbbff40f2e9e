import PluginWorkshop.CommandLog.Basic
import PluginWorkshop.Proofs.CommandLog.Entries
import PluginWorkshop.Proofs.Machine.Removing
import PluginWorkshop.Proofs.Project.Resolving

/-!
# What the command log holds

A log that can be written to holds an entry with the time at which it was stored, or nothing
(`CommandLog.Holds`). Storing an entry puts it there (`record_of_holds`), clearing takes it away
(`clear_of_holds`), and what is read is the entry that is held, unless it is too old
(`load_of_holds`). Nothing but the file of the log is touched.
-/

namespace PluginWorkshop

namespace CommandLog

/-- The log can be written to, and holds this entry, stored at this time. -/
structure Holds (log : CommandLog) (stored : Option (CommandEntry × Time)) (machine : Machine) :
    Prop where
  faults : machine.faults = []
  distinct : machine.tree.Distinct
  file : ∃ place name, Os.target machine log.path = .ok (place, .name name false) ∧
    machine.tree.get? (place ++ [name]) = stored.map fun (entry, time) =>
      .file entry.render.toUTF8 time

/-- Nobody else writes to the log, and it can still be written to. -/
structure LeftAlone (log : CommandLog) (machine machine' : Machine) : Prop where
  faults : machine'.faults = []
  distinct : machine'.tree.Distinct
  target : Os.target machine' log.path = Os.target machine log.path
  entryAt : Os.entryAt machine' log.path = Os.entryAt machine log.path

variable {log : CommandLog} {stored : Option (CommandEntry × Time)} {machine machine' : Machine}
  {entry : CommandEntry}

theorem Holds.of_leftAlone (h : log.Holds stored machine) (hleft : log.LeftAlone machine machine') :
    log.Holds stored machine' := by
  obtain ⟨place, name, htarget, hget⟩ := h.file
  have htarget' := hleft.target.trans htarget
  have hentry := hleft.entryAt
  rw [Os.entryAt_of_target htarget, Os.entryAt_of_target htarget', hget] at hentry
  refine ⟨hleft.faults, hleft.distinct, place, name, htarget', ?_⟩
  cases stored <;> cases hget' : machine'.tree.get? (place ++ [name]) <;> simp_all

theorem Holds.nodeAt_ne_directory {place : Place} {name : String} (h : log.Holds stored machine)
    (htarget : Os.target machine log.path = .ok (place, .name name false)) :
    machine.tree.nodeAt (place ++ [name]) ≠ some .directory := by
  obtain ⟨place', name', htarget', hget⟩ := h.file
  obtain ⟨rfl, rfl⟩ : place' = place ∧ name' = name := by simpa [htarget'] using htarget
  cases stored <;> simp_all [FileTree.nodeAt, FileTree.node]

/-- The log with another file in its place holds what is put there. -/
theorem Holds.putFile {place : Place} {name : String} (h : log.Holds stored machine)
    (htarget : Os.target machine log.path = .ok (place, .name name false)) (entry : CommandEntry)
    (time : Time) :
    log.Holds (some (entry, time)) (machine.withTree
      (machine.tree.put place name (.file entry.render.toUTF8 time))) := by
  have hplace := Os.target_isDirectory htarget (by simp)
  refine ⟨h.faults, h.distinct.put (.file _ _), place, name, ?_, FileTree.get?_put_self hplace⟩
  exact Os.target_of_keepsDirectories
    (Os.keepsDirectories_put hplace (h.nodeAt_ne_directory htarget)) rfl htarget

theorem clear_of_target {place : Place} {name : String} {content : ByteArray} {modified : Time}
    (htarget : Os.target machine log.path = .ok (place, .name name false))
    (hget : machine.tree.get? (place ++ [name]) = some (.file content modified)) :
    log.clear machine = .ok () (machine.withTree (machine.tree.remove place name)) :=
  Os.orFail_eq_ok.mpr (tryCatch_of_ok (by rw [Os.removeFile_of_target htarget, hget]))

/-- Clearing a log takes away what it holds. -/
theorem clear_of_holds (h : log.Holds stored machine) : ∃ tree,
    log.clear machine = .ok () (machine.withTree tree) ∧
      log.Holds none (machine.withTree tree) := by
  obtain ⟨place, name, htarget, hget⟩ := h.file
  cases stored with
  | none =>
    have hremove : Os.removeFile log.path machine = .error .notFound machine := by
      rw [Os.removeFile_of_target htarget, hget]
      rfl
    exact ⟨machine.tree, Os.orFail_eq_ok.mpr (tryCatch_of_error hremove), h⟩
  | some held =>
    have hfile := FileTree.nodeAt_eq_file.mpr hget
    refine ⟨_, clear_of_target htarget hget, h.faults, h.distinct.remove place name, place, name, ?_,
      FileTree.nodeAt_eq_none.mp ?_⟩
    · exact Os.target_of_keepsDirectories (FileTree.keepsDirectories_remove h.distinct hfile) rfl
        htarget
    · exact (FileTree.nodeAt_remove_file h.distinct hfile _).trans (if_pos rfl)

/-- Storing an entry puts it in place of what the log holds. -/
theorem record_of_holds (h : log.Holds stored machine) (entry : CommandEntry) : ∃ tree,
    log.record entry machine = .ok () (machine.withTree tree) ∧
      log.Holds (some (entry, machine.now)) (machine.withTree tree) := by
  obtain ⟨place, name, htarget, -⟩ := h.file
  have hwrite := Os.writeFile_of_target htarget (h.nodeAt_ne_directory htarget) h.faults entry.render
  exact ⟨_, Os.orFail_eq_ok.mpr hwrite, h.putFile htarget entry machine.now⟩

/-- The part of what is stored that is still fresh. -/
def fresh (log : CommandLog) (now : Time) (stored : Option (CommandEntry × Time)) :
    Option (CommandEntry × Time) :=
  stored.filter fun (_, time) => now - time ≤ log.lifetime

theorem fresh_some (log : CommandLog) (now : Time) (stored : CommandEntry × Time) :
    log.fresh now (some stored) =
      if now - stored.2 ≤ log.lifetime then some stored else none := by
  rw [fresh, Option.filter_some]
  simp only [decide_eq_true_eq]

/-- What is read from a file of the log is the entry that it stores, as long as it is fresh; any
other file is taken away. -/
theorem loadAt_of_file {text : String} {modified : Time}
    (hfile : Os.entryAt machine log.path = .ok (.file text.toUTF8 modified)) (now : Time) :
    log.loadAt now machine =
      match (log.fresh now ((CommandEntry.parse? text).map (·, modified))).map Prod.fst with
      | some entry => .ok (some entry) machine
      | none => (log.clear >>= fun _ => pure none) machine := by
  have hmodified : Os.modified log.path machine = .ok modified machine := by
    refine Os.look_eq_ok.mpr ⟨?_, rfl⟩
    rw [hfile]
    rfl
  have hread : Os.readText log.path machine = .ok text machine :=
    Os.orFail_eq_ok.mp (Project.readText_eq_ok.mpr
      ⟨rfl, _, modified, hfile, Project.fromUTF8?_toUTF8 text⟩)
  generalize text.toUTF8 = bytes at hfile
  rw [loadAt, get_bind, hfile]
  dsimp only
  rw [bind_of_ok (Os.orFail_eq_ok.mpr hmodified)]
  by_cases hstale : log.lifetime < now - modified
  · rw [if_pos hstale]
    cases CommandEntry.parse? text with
    | none => rfl
    | some entry =>
      rw [Option.map_some, fresh_some, if_neg (Int.not_le.mpr hstale)]
      rfl
  · rw [if_neg hstale, bind_of_ok (Os.orFail_eq_ok.mpr hread)]
    cases CommandEntry.parse? text with
    | none => rfl
    | some entry =>
      rw [Option.map_some, fresh_some, if_pos (Int.not_lt.mp hstale)]
      rfl

/-- What is read is the entry that the log holds, as long as it is fresh; a stale entry is taken
away. -/
theorem load_of_holds (h : log.Holds stored machine) : ∃ tree,
    log.load machine =
      .ok ((log.fresh machine.now stored).map Prod.fst) (machine.withTree tree) ∧
      log.Holds (log.fresh machine.now stored) (machine.withTree tree) := by
  obtain ⟨place, name, htarget, hget⟩ := h.file
  have hentry := Os.entryAt_of_target htarget
  rw [hget] at hentry
  cases stored with
  | none =>
    refine ⟨machine.tree, ?_, h⟩
    refine bind_eq_ok.mpr ⟨machine, machine, rfl, bind_eq_ok.mpr ⟨machine, machine, rfl, ?_⟩⟩
    rw [hentry]
    rfl
  | some held =>
    rw [load, get_bind, loadAt_of_file hentry,
      CommandEntry.parse?_render, Option.map_some, fresh_some]
    by_cases hfresh : machine.now - held.2 ≤ log.lifetime
    · rw [if_pos hfresh]
      exact ⟨machine.tree, rfl, h⟩
    · obtain ⟨tree, hclear, hnone⟩ := clear_of_holds h
      rw [if_neg hfresh]
      exact ⟨tree, bind_eq_ok.mpr ⟨(), _, hclear, rfl⟩, hnone⟩

end CommandLog

end PluginWorkshop
