import PluginWorkshop.Proofs.Machine.Siblings

/-!
# Files beside what is written

A file that is written holds what was written to it (`entryAt_putText`), and a file in another place
stays as it was (`entryAt_replaceFile_of_ne`), as do all files where directories are made
(`entryAt_makeDirectoryAll`); where they are there already, nothing is made
(`makeDirectoryAll_of_isDirectory`). A directory that was made is there
(`isDirectory_of_makeDirectoryAll`). Two names joined to one path are two places
(`namedPlace_join_ne`).
-/

namespace PluginWorkshop.Os

open PluginWorkshop.Path (IsName)

variable {machine machine' : Machine} {path file : Path} {text : String} {content : ByteArray}
  {modified : Time} {a b : String}

/-- Making a directory with its parents builds on the tree, however it ends. -/
theorem makeDirectoryAll_after (machine : Machine) (path : Path) : ∃ faults made,
    after (makeDirectoryAll path) machine =
      (machine.withFaults faults).withTree (build machine.tree made) ∧
    Makeable machine made := by
  rw [makeDirectoryAll]
  split_ifs
  · exact ⟨machine.faults, [], rfl, trivial⟩
  · obtain ⟨faults, made, hafter, hmade, -⟩ := makeDirectories_after machine
      (path :: (Path.parents path).filter (!·.isEmpty))
    exact ⟨faults, made, hafter, hmade⟩

theorem makeDirectoryAll_ok (h : makeDirectoryAll path machine = .ok () machine') :
    ∃ faults made, machine' = (machine.withFaults faults).withTree (build machine.tree made) ∧
      Makeable machine made := by
  obtain ⟨faults, made, hafter, hmade⟩ := makeDirectoryAll_after machine path
  exact ⟨faults, made, (after_of_ok h).symm.trans hafter, hmade⟩

theorem calls_makeDirectoryAll (machine : Machine) (path : Path) :
    (after (makeDirectoryAll path) machine).calls = machine.calls := by
  obtain ⟨_, _, hafter, -⟩ := makeDirectoryAll_after machine path
  rw [hafter]
  rfl

theorem entryAt_makeDirectoryAll (h : makeDirectoryAll path machine = .ok () machine')
    (hfile : entryAt machine file = .ok (.file content modified)) :
    entryAt machine' file = .ok (.file content modified) := by
  obtain ⟨faults, made, rfl, hmade⟩ := makeDirectoryAll_ok h
  obtain ⟨place, hlocate, hget⟩ := entryAt_eq_ok.mp hfile
  have hnode := FileTree.nodeAt_eq_file.mpr hget
  have hkept : (build machine.tree made).nodeAt place = some (.file content modified) := by
    rw [nodeAt_build hmade, if_neg ?_, hnode]
    rintro ⟨m, hm, rfl⟩
    simp [hmade.nodeAt_place hm] at hnode
  have hkeeps : KeepsDirectories machine.tree (build machine.tree made) :=
    fun _ hdirectory => (extends_build hmade).directory hdirectory
  exact entryAt_of_keepsDirectories hkeeps rfl hlocate hnode hkept

/-- Putting text into a file puts it in its directory, and all directories stay. -/
theorem putText_keeps {slashError : OsError}
    (h : writing (putText slashError path text) machine = .ok () machine') :
    ∃ place name, target machine path = .ok (place, .name name false) ∧
      machine.tree.nodeAt place = some .directory ∧
      machine.tree.nodeAt (place ++ [name]) ≠ some .directory ∧
      machine'.tree = machine.tree.put place name (.file text.toUTF8 machine.now) ∧
      machine'.cwd = machine.cwd ∧ KeepsDirectories machine.tree machine'.tree := by
  obtain ⟨place, name, faults, htarget, hnode, rfl⟩ := putText_ok h
  have hplace := target_isDirectory htarget (by simp)
  exact ⟨place, name, htarget, hplace, hnode, rfl, rfl, keepsDirectories_put hplace hnode⟩

theorem entryAt_putText {slashError : OsError}
    (h : writing (putText slashError path text) machine = .ok () machine') :
    entryAt machine' path = .ok (.file text.toUTF8 machine.now) := by
  obtain ⟨place, name, htarget, hplace, hnode, htree, hcwd, hkeeps⟩ := putText_keeps h
  rw [entryAt_of_target (target_of_keepsDirectories hkeeps hcwd htarget), htree,
    FileTree.get?_put_self hplace]

/-- Replacing a file puts it in its directory, and all directories stay. -/
theorem replaceFile_ok (h : replaceFile path text machine = .ok () machine') :
    ∃ place name, target machine path = .ok (place, .name name false) ∧
      machine.tree.nodeAt place = some .directory ∧
      machine.tree.nodeAt (place ++ [name]) ≠ some .directory ∧
      machine'.tree = machine.tree.put place name (.file text.toUTF8 machine.now) ∧
      machine'.cwd = machine.cwd ∧ KeepsDirectories machine.tree machine'.tree :=
  putText_keeps (replaceFile_eq path text ▸ h)

theorem calls_replaceFile (machine : Machine) (path : Path) (text : String) :
    (after (replaceFile path text) machine).calls = machine.calls := by
  rw [replaceFile_eq]
  cases h : writing (putText .notADirectory path text) machine with
  | ok _ written =>
    obtain ⟨_, _, _, -, -, rfl⟩ := putText_ok h
    rw [after_of_ok h]
    rfl
  | error e failed =>
    obtain ⟨_, rfl⟩ := putText_error h
    rw [after_of_error h]
    rfl

theorem entryAt_replaceFile (h : replaceFile path text machine = .ok () machine') :
    entryAt machine' path = .ok (.file text.toUTF8 machine.now) :=
  entryAt_putText (replaceFile_eq path text ▸ h)

theorem entryAt_writeFile (h : writeFile path text machine = .ok () machine') :
    entryAt machine' path = .ok (.file text.toUTF8 machine.now) :=
  entryAt_putText (writeFile_eq path text ▸ h)

theorem entryAt_replaceFile_of_ne (h : replaceFile path text machine = .ok () machine')
    (hne : namedPlace machine file ≠ namedPlace machine path)
    (hfile : entryAt machine file = .ok (.file content modified)) :
    entryAt machine' file = .ok (.file content modified) := by
  obtain ⟨place, name, htarget, hplace, hnode, htree, hcwd, hkeeps⟩ := replaceFile_ok h
  obtain ⟨there, hlocate, hget⟩ := entryAt_eq_ok.mp hfile
  refine entryAt_of_keepsDirectories hkeeps hcwd hlocate (FileTree.nodeAt_eq_file.mpr hget) ?_
  rw [htree, FileTree.nodeAt_put hplace hnode rfl, if_neg ?_, FileTree.nodeAt_eq_file.mpr hget]
  rwa [target_eq_namedPlace htarget, locate_eq_namedPlace hlocate]

/-! ## Files and directories that are there -/

/-- A path that leads somewhere names what is there. -/
theorem exists_target_of_locate {place : Place} (h : locate machine path = .ok place) :
    ∃ directory last, target machine path = .ok (directory, last) ∧
      ∀ name slash, last = .name name slash → machine.tree.nodeAt (directory ++ [name]) ≠ none := by
  obtain ⟨hcheck, hwalk⟩ := locate_eq_ok.mp h
  have hsplit := List.takeWhile_append_dropWhile (p := (· == "")) (l := (Path.pieces path).reverse)
  cases hback : (Path.pieces path).reverse.dropWhile (· == "") with
  | nil =>
    refine ⟨[], .dot, ?_, by simp⟩
    simp [target, hcheck, hback, bind, Except.bind, pure, Except.pure]
  | cons last before =>
    have hlast : last ≠ "" := by
      have := List.head?_dropWhile_not (· == "") (Path.pieces path).reverse
      simpa [hback] using this
    rw [hback] at hsplit
    have hpieces : Path.pieces path = before.reverse ++ (last ::
        ((Path.pieces path).reverse.takeWhile (· == "")).reverse) := by
      simpa using (congrArg List.reverse hsplit).symm
    rw [hpieces] at hwalk
    obtain ⟨directory, hbefore, hwalk⟩ := walk_append_eq_ok.mp hwalk
    obtain ⟨place, hstep, -⟩ := walk_cons_eq_ok.mp hwalk
    obtain ⟨hdirectory, hplace⟩ := step_eq_ok.mp hstep
    have htarget := target_of_walk hcheck hback hbefore hdirectory
    rcases hplace with ⟨hinert, -⟩ | ⟨hdots, -⟩ | ⟨hinert, hdots, hsize, rfl, hnode⟩
    · have hdot : last = "." := by simpa [Path.isInert, hlast] using hinert
      exact ⟨directory, .dot, by rw [htarget, if_pos hdot], by simp⟩
    · have hdot : last ≠ "." := by simp [hdots]
      exact ⟨directory, .dotDot, by rw [htarget, if_neg hdot, if_pos hdots], by simp⟩
    · have hdot : last ≠ "." := by
        rintro rfl
        exact absurd hinert (by decide)
      refine ⟨directory, .name last _, by
        rw [htarget, if_neg hdot, if_neg hdots, if_neg (by omega)], ?_⟩
      rintro name slash hname
      obtain ⟨rfl, -⟩ := LastPiece.name.inj hname
      exact hnode

theorem walk_isDirectory {here place : Place} {pieces : List String}
    (h : walk machine.tree here pieces = .ok place) (hpieces : pieces ≠ []) :
    machine.tree.nodeAt here = some .directory := by
  obtain ⟨piece, pieces, rfl⟩ := List.exists_cons_of_ne_nil hpieces
  obtain ⟨next, hstep, -⟩ := walk_cons_eq_ok.mp h
  exact (step_eq_ok.mp hstep).1

theorem isDirectory_iff : isDirectory machine path = true ↔
    ∃ place, locate machine path = .ok place ∧ machine.tree.nodeAt place = some .directory := by
  have hentry : isDirectory machine path = true ↔
      ∃ entries, entryAt machine path = .ok (.directory entries) := by
    rw [isDirectory]
    cases entryAt machine path with
    | error e => simp
    | ok entry => cases entry <;> simp [FileTree.isDirectory]
  simp only [hentry, entryAt_eq_ok, FileTree.nodeAt_eq_directory]
  exact ⟨fun ⟨entries, place, h⟩ => ⟨place, h.1, entries, h.2⟩,
    fun ⟨place, hlocate, entries, hget⟩ => ⟨entries, place, hlocate, hget⟩⟩

/-- What holds a file is a directory. -/
theorem isDirectory_parent {parent : Path} (hparent : Path.parent? path = some parent)
    (hfile : entryAt machine path = .ok (.file content modified)) :
    parent = "" ∨ isDirectory machine parent = true := by
  by_cases hne : parent = ""
  · exact Or.inl hne
  refine Or.inr ?_
  rw [isDirectory_iff]
  obtain ⟨place, hlocate, -⟩ := entryAt_eq_ok.mp hfile
  -- Whatever the last pieces of the path are, the first of them is looked up in the parent.
  rcases Path.exists_append_of_parent? hparent hne with ⟨rest, rfl⟩ | ⟨rfl, rest, rfl⟩
  · obtain ⟨there, hthere, hwalk⟩ := locate_append hne hlocate
    exact ⟨there, hthere, walk_isDirectory hwalk (pieces_ne_nil rest)⟩
  · obtain ⟨-, hwalk⟩ := locate_eq_ok.mp hlocate
    rw [startOf_slash_append] at hwalk
    have hroot := walk_isDirectory hwalk (pieces_ne_nil _)
    exact ⟨[], locate_root hroot, hroot⟩

/-- There is nothing to make where a directory is. -/
theorem makeDirectoryAll_of_isDirectory (hfaults : machine.faults = [])
    (h : path = "" ∨ isDirectory machine path = true) :
    makeDirectoryAll path machine = .ok () machine := by
  rw [makeDirectoryAll]
  split_ifs with hempty
  · rfl
  have hdirectory : isDirectory machine path = true := h.resolve_left (by simpa using hempty)
  obtain ⟨place, hlocate, -⟩ := isDirectory_iff.mp hdirectory
  obtain ⟨directory, last, htarget, hthere⟩ := exists_target_of_locate hlocate
  have hmake : makeDirectory path machine = .error .alreadyExists machine := by
    rw [makeDirectory, writing, hfaults]
    refine (look_bind_of_ok htarget).trans ?_
    cases last with
    | name name slash =>
      have hsome : (machine.tree.get? (directory ++ [name])).isSome = true :=
        Option.isSome_iff_ne_none.mpr (mt FileTree.nodeAt_eq_none.mpr (hthere name slash rfl))
      simp only [get_bind, hsome, if_true]
      rfl
    | dot => rfl
    | dotDot => rfl
  rw [makeDirectories, tryCatch_apply, hmake]
  change (if isDirectory machine path then pure () else throw .alreadyExists : Os Unit) machine = _
  rw [if_pos hdirectory]
  rfl

/-! ## Directories that were made -/

theorem isDirectory_of_makeDirectory (h : makeDirectory path machine = .ok () machine') :
    isDirectory machine' path = true := by
  have hnone : Makeable machine [] := trivial
  obtain ⟨faults, parent, name, rfl, hmade⟩ := makeDirectory_build hnone
    (show makeDirectory path ((machine.withFaults machine.faults).withTree
      (build machine.tree [])) = _ from h)
  rw [isDirectory_iff]
  have hlocate := hmade.locate List.mem_cons_self
  exact ⟨_, hlocate, (nodeAt_build_cons hmade _).trans (if_pos rfl)⟩

theorem isDirectory_of_unless {e : OsError}
    (h : (do unless isDirectory (← get) path do throw e : Os Unit) machine = .ok () machine') :
    isDirectory machine' path = true := by
  rw [get_bind] at h
  split_ifs at h with hdirectory
  · obtain ⟨-, rfl⟩ := pure_eq_ok.mp h
    exact hdirectory
  · exact absurd h throw_ne_ok

theorem isDirectory_of_tryCatch {handle : OsError → Os Unit}
    (hhandle : ∀ {e failed}, handle e failed = .ok () machine' → isDirectory machine' path = true)
    (h : tryCatch (makeDirectory path) handle machine = .ok () machine') :
    isDirectory machine' path = true := by
  rw [tryCatch_apply] at h
  cases hmake : makeDirectory path machine with
  | ok _ made =>
    rw [hmake] at h
    obtain ⟨-, rfl⟩ := EStateM.Result.ok.inj h
    exact isDirectory_of_makeDirectory hmake
  | error e failed =>
    rw [hmake] at h
    exact hhandle h

/-- Once the first directory of a list is made, it is there. -/
theorem isDirectory_of_makeDirectories {parents : List Path}
    (h : makeDirectories (path :: parents) machine = .ok () machine') :
    isDirectory machine' path = true := by
  refine isDirectory_of_tryCatch (fun {e failed} h => ?_) h
  split_ifs at h
  · obtain ⟨_, _, -, h⟩ := bind_eq_ok.mp h
    exact isDirectory_of_tryCatch isDirectory_of_unless h
  · exact isDirectory_of_unless h

theorem isDirectory_of_makeDirectoryAll (hpath : path ≠ "")
    (h : makeDirectoryAll path machine = .ok () machine') : isDirectory machine' path = true := by
  rw [makeDirectoryAll, if_neg (by simpa using hpath)] at h
  exact isDirectory_of_makeDirectories h

/-- A directory is still there once a file is replaced. -/
theorem isDirectory_replaceFile (h : replaceFile file text machine = .ok () machine')
    (hdirectory : isDirectory machine path = true) : isDirectory machine' path = true := by
  obtain ⟨_, _, -, -, -, -, hcwd, hkeeps⟩ := replaceFile_ok h
  rw [isDirectory_iff] at hdirectory ⊢
  obtain ⟨place, hlocate, hnode⟩ := hdirectory
  obtain ⟨hcheck, hwalk⟩ := locate_eq_ok.mp hlocate
  refine ⟨place, locate_eq_ok.mpr ⟨hcheck, ?_⟩, hkeeps hnode⟩
  rw [startOf, hcwd]
  exact (walk_of_keepsDirectories hkeeps hwalk hnode).1

/-! ## Names joined to a path -/

/-- What is joined to a path names an entry in the place that the path names. -/
theorem namedPlace_join_eq (machine : Machine) (base : Path) (ha : IsName a) (hdots : a ≠ "..") :
    namedPlace machine (Path.join base a) = namedPlace machine base ++ [a] := by
  have hpieces : Path.pieces "" = [""] := by decide
  have hempty : ∀ place, namedStep place "" = place := fun place => if_pos (by decide)
  rw [Path.join, if_neg (by simp [ha.isAbsolute_eq])]
  split_ifs with hslash
  · rcases Bool.or_eq_true_iff.mp hslash with hbase | hlast
    · obtain rfl : base = "" := by simpa using hbase
      have hstart : startOf machine a = startOf machine "" := by
        rw [startOf, startOf, ha.isAbsolute_eq]
        rfl
      rw [String.empty_append, namedPlace, namedPlace, ha.pieces_eq, hstart, hpieces,
        List.foldl_cons, List.foldl_nil, List.foldl_cons, List.foldl_nil, hempty, namedStep,
        if_neg (by simp [ha.inert]), if_neg hdots]
    · obtain ⟨front, hfront⟩ := List.getLast?_eq_some_iff.mp (beq_iff_eq.mp hlast)
      obtain rfl : base = String.ofList front ++ "/" := by
        rw [← String.toList_inj, hfront]
        simp
      have hfrontPieces := Path.pieces_append (String.ofList front) ""
      rw [String.append_empty, hpieces] at hfrontPieces
      rw [namedPlace_join _ ha hdots, namedPlace, hfrontPieces, List.foldl_append, List.foldl_cons,
        List.foldl_nil, hempty]
  · have hne : base ≠ "" := by
      rintro rfl
      exact hslash rfl
    have hstart : startOf machine (base ++ "/" ++ "") = startOf machine base := startOf_append hne
    rw [String.append_empty] at hstart
    rw [namedPlace_join _ ha hdots, namedPlace, hstart]

theorem namedPlace_join_ne (machine : Machine) (base : Path) (ha : IsName a) (hb : IsName b)
    (hadots : a ≠ "..") (hbdots : b ≠ "..") (hne : a ≠ b) :
    namedPlace machine (Path.join base a) ≠ namedPlace machine (Path.join base b) := by
  rw [namedPlace_join_eq machine base ha hadots, namedPlace_join_eq machine base hb hbdots]
  exact fun h => hne (by simpa using h)

end PluginWorkshop.Os
