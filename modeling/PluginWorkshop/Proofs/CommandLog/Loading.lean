import PluginWorkshop.Proofs.CommandLog.Storing
import PluginWorkshop.Proofs.Machine.Entries

/-!
# What is read from the log

An entry that was stored is read as long as it is fresh, whatever stood in the file before
(`entryAt_record`). A file with any text and of any age is read without an error: it gives the entry
that it stores, if that is fresh, and stays as it is; else it gives nothing and is removed
(`exists_loadAt`). Both come down to what is in the file (`CommandLog.loadAt_of_file`) and to the
removal of a file (`exists_clear`).
-/

namespace PluginWorkshop.CommandLog

variable {log : CommandLog} {machine recorded : Machine} {entry : CommandEntry} {text : String}
  {modified : Time}

/-- There can be a log: its directory is there, and no other directory is in the place of its
file. -/
def HasPlace (log : CommandLog) (machine : Machine) : Prop :=
  ∃ place name, Os.target machine log.path = .ok (place, .name name false) ∧
    machine.tree.nodeAt (place ++ [name]) ≠ some .directory

/-- The file of the log has been removed, and nothing else has changed. -/
structure Forgotten (log : CommandLog) (machine machine' : Machine) : Prop where
  file : Os.fileExists machine' log.path = false
  others : ∀ place, place ≠ Os.namedPlace machine log.path →
    machine'.tree.nodeAt place = machine.tree.nodeAt place
  withTree_eq : machine.withTree machine'.tree = machine'

/-- A file of the log can be removed. -/
theorem exists_clear {content : ByteArray} (hdistinct : machine.tree.Distinct)
    (hfile : Os.entryAt machine log.path = .ok (.file content modified)) :
    ∃ machine', log.clear machine = .ok () machine' ∧ log.Forgotten machine machine' := by
  obtain ⟨there, hlocate, hget⟩ := Os.entryAt_eq_ok.mp hfile
  have hnode := FileTree.nodeAt_eq_file.mpr hget
  obtain ⟨place, name, htarget, rfl, -⟩ := Os.target_of_locate hlocate hnode
  have hnodes := FileTree.nodeAt_remove_file hdistinct hnode
  refine ⟨_, clear_of_target htarget hget, ?_, fun q hq => ?_, rfl⟩
  · have hgone : (machine.tree.remove place name).get? (place ++ [name]) = none :=
      FileTree.nodeAt_eq_none.mp ((hnodes _).trans (if_pos rfl))
    have htarget' : Os.target (machine.withTree (machine.tree.remove place name)) log.path =
        .ok (place, .name name false) :=
      Os.target_of_keepsDirectories (FileTree.keepsDirectories_remove hdistinct hnode) rfl htarget
    rw [Os.fileExists, Os.entryAt_of_target htarget', Machine.withTree_tree, hgone]
    rfl
  · rw [← Os.locate_eq_namedPlace hlocate] at hq
    exact (hnodes q).trans (if_neg hq)

/-! ## Storing -/

/-- An entry can be stored, whatever the file held before. -/
theorem exists_record (h : log.HasPlace machine) (hfaults : machine.faults = [])
    (entry : CommandEntry) : ∃ recorded, log.record entry machine = .ok () recorded := by
  obtain ⟨place, name, htarget, hnode⟩ := h
  exact ⟨_, Os.orFail_eq_ok.mpr (Os.writeFile_of_target htarget hnode hfaults entry.render)⟩

/-- A stored entry is the text of the file from then on. -/
theorem entryAt_record (h : log.record entry machine = .ok () recorded) :
    Os.entryAt recorded log.path = .ok (.file entry.render.toUTF8 machine.now) :=
  Os.entryAt_writeFile (Os.orFail_eq_ok.mp h)

theorem distinct_record (hdistinct : machine.tree.Distinct)
    (h : log.record entry machine = .ok () recorded) : recorded.tree.Distinct := by
  obtain ⟨place, name, faults, -, -, rfl⟩ := Os.putText_ok (Os.orFail_eq_ok.mp h)
  exact hdistinct.put (.file _ _)

/-! ## Reading -/

/-- A file of the log is read without an error. Either it gives its entry, and nothing changes, or
it gives nothing and is removed. -/
theorem exists_loadAt (hdistinct : machine.tree.Distinct)
    (hfile : Os.entryAt machine log.path = .ok (.file text.toUTF8 modified)) (now : Time) :
    ∃ result machine', log.loadAt now machine = .ok result machine' ∧
      result = (if now - modified ≤ log.lifetime then CommandEntry.parse? text else none) ∧
      (result ≠ none → machine' = machine) ∧ (result = none → log.Forgotten machine machine') := by
  have hload := loadAt_of_file hfile now
  have hfresh : (log.fresh now ((CommandEntry.parse? text).map (·, modified))).map Prod.fst =
      if now - modified ≤ log.lifetime then CommandEntry.parse? text else none := by
    cases CommandEntry.parse? text with
    | none => simp [fresh]
    | some entry =>
      rw [Option.map_some, fresh_some]
      split_ifs <;> rfl
  rw [hfresh] at hload
  cases hresult : if now - modified ≤ log.lifetime then CommandEntry.parse? text else none with
  | some entry =>
    rw [hresult] at hload
    exact ⟨_, machine, hload, rfl, fun _ => rfl, fun h => absurd h (Option.some_ne_none entry)⟩
  | none =>
    obtain ⟨machine', hclear, hforgotten⟩ := exists_clear hdistinct hfile
    rw [hresult] at hload
    exact ⟨none, machine', hload.trans (bind_of_ok hclear), rfl, fun h => absurd rfl h,
      fun _ => hforgotten⟩

/-- A fresh entry is read as it was stored, and stays. -/
theorem loadAt_of_record (h : log.record entry machine = .ok () recorded) {now : Time}
    (hfresh : now - machine.now ≤ log.lifetime) :
    log.loadAt now recorded = .ok (some entry) recorded := by
  rw [loadAt_of_file (entryAt_record h), CommandEntry.parse?_render, Option.map_some, fresh_some,
    if_pos hfresh]
  rfl

end PluginWorkshop.CommandLog
