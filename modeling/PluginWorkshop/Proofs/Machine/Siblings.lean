import PluginWorkshop.Proofs.Machine.NewFiles

/-!
# Files in one directory

Two names joined to one path name two entries of the directory that the path leads to: once one of
them leads to a file, the other one can be looked for there (`target_join`), and no parent of it is
missing (`missingParents_join`). Removing an entry takes it and all below it away
(`FileTree.nodeAt_remove`), in a tree that lists no name twice in a directory.
-/

namespace PluginWorkshop

namespace Path

open Text

/-- A text that is one component, wherever it stands in a path. -/
structure IsName (name : String) : Prop where
  slash : '/' ∉ name.toList
  inert : isInert name = false

variable {root path name a b : String}

theorem IsName.ne_empty (h : IsName name) : name ≠ "" := by
  rintro rfl
  exact absurd h.inert (by decide)

theorem IsName.pieces_eq (h : IsName name) : pieces name = [name] := by
  simp [pieces, splitOn_of_notMem h.slash]

theorem IsName.isAbsolute_eq (h : IsName name) : isAbsolute name = false := by
  rw [isAbsolute]
  cases hname : name.toList with
  | nil => rfl
  | cons c rest =>
    have hslash := h.slash
    rw [hname] at hslash
    simpa using fun hc : c = '/' => hslash (by simp [hc])

/-- A file name is one of the pieces of its path. -/
theorem mem_pieces_of_fileName? (h : fileName? path = some name) :
    name ∈ pieces path ∧ isInert name = false := by
  have hlast : ∃ last ∈ pieces path,
      fileName? path = if isInert last || last == ".." then none else some last := by
    rw [fileName?]
    cases hback : backwards path with
    | nil =>
      obtain ⟨start, rest, hpieces⟩ : ∃ start rest, pieces path = start :: rest :=
        List.exists_cons_of_ne_nil (by simp [pieces, splitOn, splitWhere_ne_nil])
      exact ⟨start, by simp [hpieces], by rw [hpieces]; rfl⟩
    | cons last before =>
      have hmem : last ∈ backwards path := by simp [hback]
      exact ⟨last, List.mem_of_mem_drop (List.mem_reverse.mp
        ((List.dropWhile_sublist _).subset hmem)), rfl⟩
  obtain ⟨last, hmem, heq⟩ := hlast
  rw [heq] at h
  split_ifs at h with hinert
  obtain rfl := Option.some.inj h
  rw [Bool.not_eq_true, Bool.or_eq_false_iff] at hinert
  exact ⟨hmem, hinert.1⟩

theorem slash_notMem_of_mem_pieces {piece : String} (h : piece ∈ pieces path) :
    '/' ∉ piece.toList := by
  obtain ⟨chars, hchars, rfl⟩ := List.mem_map.mp h
  rw [String.toList_ofList]
  exact notMem_of_mem_splitOn hchars

theorem isName_of_fileName? (h : fileName? path = some name) : IsName name := by
  obtain ⟨hmem, hinert⟩ := mem_pieces_of_fileName? h
  exact ⟨slash_notMem_of_mem_pieces hmem, hinert⟩

theorem IsName.append_extension (h : IsName name) : IsName (name ++ ".php") := by
  refine ⟨by simpa using h.slash, ?_⟩
  have hlast : (name ++ ".php").toList.getLast? = some 'p' := by simp
  rw [isInert, Bool.or_eq_false_iff, beq_eq_false_iff_ne, beq_eq_false_iff_ne]
  constructor <;> intro hname <;> rw [hname] at hlast <;> exact absurd hlast (by decide)

/-- Names are joined to a path behind one and the same slash. -/
theorem exists_join_eq (hroot : root ≠ "") :
    ∃ front, ∀ {name}, IsName name → join root name = front ++ "/" ++ name := by
  by_cases hslash : root.toList.getLast? = some '/'
  · obtain ⟨front, hfront⟩ := List.getLast?_eq_some_iff.mp hslash
    have hroot' : root = String.ofList front ++ "/" := by
      rw [← String.toList_inj, hfront]
      simp
    refine ⟨String.ofList front, fun hname => ?_⟩
    rw [join, if_neg (by simp [hname.isAbsolute_eq]), if_pos (by simp [hslash]), ← hroot']
  · refine ⟨root, fun hname => ?_⟩
    rw [join, if_neg (by simp [hname.isAbsolute_eq]), if_neg (by simp [hslash, hroot])]

theorem isAbsolute_join (front a b : String) :
    isAbsolute (front ++ "/" ++ a) = isAbsolute (front ++ "/" ++ b) := by
  cases hfront : front.toList <;> simp [isAbsolute, hfront]

theorem pieces_join (front : String) (h : IsName name) :
    pieces (front ++ "/" ++ name) = pieces front ++ [name] := by
  rw [pieces_append, h.pieces_eq]

/-- Two names have the same parent. -/
theorem parent?_join (front : String) (ha : IsName a) (hb : IsName b) :
    parent? (front ++ "/" ++ a) = parent? (front ++ "/" ++ b) := by
  have hfront : pieces front ≠ [] := by simp [pieces, splitOn, splitWhere_ne_nil]
  have hback : ∀ {name}, IsName name → backwards (front ++ "/" ++ name) =
      name :: ((pieces front).drop 1).reverse := by
    intro name hname
    have hlength := List.length_pos_iff.mpr hfront
    rw [backwards, pieces_join front hname, List.drop_append_of_le_length (by omega),
      List.reverse_append, List.reverse_singleton, List.singleton_append,
      List.dropWhile_cons_of_neg (by simp [hname.inert])]
  have hhead : ∀ {name}, IsName name → (pieces (front ++ "/" ++ name)).headD "" =
      (pieces front).headD "" := by
    intro name hname
    obtain ⟨start, rest, hpieces⟩ := List.exists_cons_of_ne_nil hfront
    rw [pieces_join front hname, hpieces]
    rfl
  rw [parent?, parent?, hback ha, hback hb, hhead ha, hhead hb, isAbsolute_join front a b]

end Path

namespace Os

open PluginWorkshop.Path (IsName)

variable {machine machine' : Machine} {front a b : String} {place : Place}

theorem namedPlace_join (front : String) (ha : IsName a) (hdots : a ≠ "..") :
    namedPlace machine (front ++ "/" ++ a) =
      (Path.pieces front).foldl namedStep (startOf machine (front ++ "/")) ++ [a] := by
  have hstart : startOf machine (front ++ "/" ++ a) = startOf machine (front ++ "/") := by
    rw [startOf, startOf, Path.isAbsolute_join front a "", String.append_empty]
  rw [namedPlace, hstart, Path.pieces_join front ha, List.foldl_append, List.foldl_cons, List.foldl_nil,
    namedStep, if_neg (by simp [ha.inert]), if_neg hdots]

/-- Beside a file, a name leads into the directory of the file, unless the path is too long. -/
theorem target_join {content : ByteArray} {modified : Time} (ha : IsName a) (hb : IsName b)
    (hdots : b ≠ "..") (hnul : '\x00' ∉ b.toList) (hsize : b.utf8ByteSize ≤ maxNameBytes)
    (hlocate : locate machine (front ++ "/" ++ a) = .ok place)
    (hfile : machine.tree.nodeAt place = some (.file content modified)) :
    ∃ directory, place = directory ++ [a] ∧
      namedPlace machine (front ++ "/" ++ b) = directory ++ [b] ∧
      machine.tree.nodeAt directory = some .directory ∧
      target machine (front ++ "/" ++ b) =
        if (front ++ "/" ++ b).utf8ByteSize < pathBytesLimit then .ok (directory, .name b false)
        else .error .nameTooLong := by
  obtain ⟨directory, name, htarget, rfl, hdir⟩ := target_of_locate hlocate hfile
  obtain ⟨hcheck, before, hback, hwalk, -, -, hnameDots, -⟩ := target_eq_name.mp htarget
  have hreverse : ∀ {name}, IsName name →
      (Path.pieces (front ++ "/" ++ name)).reverse.dropWhile (· == "") =
        name :: (Path.pieces front).reverse := by
    intro name hname
    rw [Path.pieces_join front hname, List.reverse_append, List.reverse_singleton,
      List.singleton_append, List.dropWhile_cons_of_neg (by simp [hname.ne_empty])]
  obtain ⟨rfl, rfl⟩ := List.cons.inj ((hreverse ha).symm.trans hback)
  have hnamed := target_eq_namedPlace htarget
  rw [namedPlace_join front ha hnameDots] at hnamed
  obtain ⟨rfl, -⟩ := List.append_inj' hnamed rfl
  refine ⟨_, rfl, namedPlace_join front hb hdots, hdir, ?_⟩
  have hnul' : '\x00' ∉ (front ++ "/" ++ b).toList := by
    have := (checkPath_eq_ok.mp hcheck).1
    simp only [String.toList_append, List.mem_append, not_or] at this ⊢
    exact ⟨this.1, hnul⟩
  have hne : front ++ "/" ++ b ≠ "" := by simp
  split_ifs with hlimit
  · refine target_eq_name.mpr ⟨checkPath_eq_ok.mpr ⟨hnul', hne, hlimit⟩, _, hreverse hb, ?_, hdir, ?_,
      hdots, hsize, ?_⟩
    · rw [startOf, Path.isAbsolute_join front b a]
      exact hwalk
    · exact fun h => absurd hb.inert (by simp [h, Path.isInert])
    · rw [Path.pieces_join front hb]
      simp [hb.ne_empty]
  · have hlong : checkPath (front ++ "/" ++ b) = .error .nameTooLong := by
      rw [checkPath, if_neg (by simpa using hnul'), if_neg (by simp), if_pos (by omega)]
    rw [target, hlong]
    rfl

end Os

namespace Files

open PluginWorkshop.Path (IsName)

variable {machine : Machine} {front a b : String} {place : Place}

/-- No parent is missing beside what is there. -/
theorem missingParents_join (ha : IsName a) (hb : IsName b)
    (hlocate : Os.locate machine (front ++ "/" ++ a) = .ok place) :
    missingParents machine (front ++ "/" ++ b) = [] := by
  rw [missingParents_eq_filter, List.filter_eq_nil_iff]
  intro d hd
  rw [Path.parents, Path.pieces_join front hb, List.length_append, List.length_singleton,
    Path.parentsUpTo, ← Path.parent?_join front ha hb] at hd
  cases hparent : Path.parent? (front ++ "/" ++ a) with
  | none => simp [hparent] at hd
  | some parent =>
    rw [hparent] at hd
    dsimp only at hd
    by_cases hempty : parent = ""
    · rw [hempty, Path.parentsUpTo_empty, List.mem_singleton] at hd
      simp [isMissing, hd]
    · have hexists := Os.fileExists_iff.mpr (Os.locate_parent hparent hempty hlocate)
      rcases List.mem_cons.mp hd with rfl | hd
      · simp [isMissing, hexists]
      · rcases parentsUpTo_of_fileExists _ hexists hd with rfl | hd
        · simp [isMissing]
        · simp [isMissing, hd]

end Files

end PluginWorkshop
