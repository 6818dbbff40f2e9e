import PluginWorkshop.Proofs.Machine.Siblings

/-!
# Canonical paths

The canonical path of a place spells the names that lead to it. It leads there, if the system takes
it (`locate_spelled`), and it is no longer than an absolute path that leads there
(`utf8ByteSize_spelled_le`), so that the canonical path of an absolute path that can be followed
always leads where that leads (`hasCanonical_of_isAbsolute`).
-/

namespace PluginWorkshop

namespace Path

variable {name : String} {names : List String}

/-- The path of the names that lead from the root to a place. -/
def spelled (names : List String) : Path := "/" ++ "/".intercalate names

theorem pieces_spelled (hne : names ≠ []) (h : ∀ name ∈ names, IsName name) :
    pieces (spelled names) = "" :: names := by
  have hnames : pieces ("/".intercalate names) = names := by
    induction names with
    | nil => exact absurd rfl hne
    | cons name names ih =>
      have hname := (h name List.mem_cons_self).pieces_eq
      cases names with
      | nil => rw [String.intercalate_singleton, hname]
      | cons next names =>
        rw [String.intercalate_cons_cons, pieces_append, hname, ih (List.cons_ne_nil _ _)
          fun n hn => h n (List.mem_cons_of_mem _ hn)]
        rfl
  have hroot := pieces_append "" ("/".intercalate names)
  rw [String.empty_append, hnames] at hroot
  exact hroot

theorem isAbsolute_spelled (names : List String) : isAbsolute (spelled names) = true := by
  simp [isAbsolute, spelled]

/-- The bytes that names take up with a slash in front of each. -/
def spelledSize : List String → Nat
  | [] => 0
  | name :: names => 1 + name.utf8ByteSize + spelledSize names

theorem spelledSize_append (names names' : List String) :
    spelledSize (names ++ names') = spelledSize names + spelledSize names' := by
  induction names with
  | nil => simp [spelledSize]
  | cons name names ih =>
    rw [List.cons_append, spelledSize, spelledSize, ih]
    omega

theorem utf8ByteSize_intercalate (hne : names ≠ []) :
    1 + ("/".intercalate names).utf8ByteSize = spelledSize names := by
  have hslash : "/".utf8ByteSize = 1 := by decide
  induction names with
  | nil => exact absurd rfl hne
  | cons name names ih =>
    cases names with
    | nil => simp [spelledSize]
    | cons next names =>
      have ih := ih (List.cons_ne_nil _ _)
      rw [String.intercalate_cons_cons, String.utf8ByteSize_append, String.utf8ByteSize_append,
        hslash]
      simp only [spelledSize] at ih ⊢
      omega

theorem utf8ByteSize_spelled (hne : names ≠ []) :
    (spelled names).utf8ByteSize = spelledSize names := by
  rw [spelled, String.utf8ByteSize_append, ← utf8ByteSize_intercalate hne]
  rfl

theorem exists_spelledSize_of_isAbsolute {path : Path} (h : isAbsolute path = true) :
    ∃ rest, pieces path = "" :: rest ∧ path.utf8ByteSize = spelledSize rest := by
  obtain ⟨rest, hpieces⟩ := exists_pieces_of_isAbsolute h
  refine ⟨rest, hpieces, ?_⟩
  have hsize := utf8ByteSize_intercalate (Os.pieces_ne_nil path)
  rw [intercalate_pieces, hpieces] at hsize
  simp only [spelledSize, String.utf8ByteSize_empty] at hsize
  omega

theorem mem_spelled_iff {c : Char} (hc : c ≠ '/') :
    c ∈ (spelled names).toList ↔ ∃ name ∈ names, c ∈ name.toList := by
  rw [spelled, String.toList_append, List.mem_append, Text.mem_intercalate (by simpa using hc)]
  simp [hc]

theorem mem_iff_exists_pieces {c : Char} (hc : c ≠ '/') (path : Path) :
    c ∈ path.toList ↔ ∃ piece ∈ pieces path, c ∈ piece.toList := by
  have hsep : c ∉ "/".toList := by simpa using hc
  rw [← Text.mem_intercalate hsep, intercalate_pieces]

/-- A name is put behind a path of names by a slash. -/
theorem spelled_concat (hne : names ≠ []) (name : String) :
    spelled (names ++ [name]) = spelled names ++ "/" ++ name := by
  rw [spelled, spelled, String.intercalate_append_of_ne_nil hne (List.cons_ne_nil _ _),
    String.intercalate_singleton, ← String.append_assoc, ← String.append_assoc]

/-! ## Names joined to paths -/

theorem getLast?_ne_slash (h : IsName name) : name.toList.getLast? ≠ some '/' :=
  fun hlast => h.slash (List.mem_of_getLast? hlast)

theorem join_of_getLast? {base : Path} (hbase : base ≠ "")
    (hslash : base.toList.getLast? ≠ some '/') (h : IsName name) :
    join base name = base ++ "/" ++ name := by
  rw [join, if_neg (by simp [h.isAbsolute_eq]), if_neg (by simp [hbase, hslash])]

theorem join_ne_empty (base : Path) (h : IsName name) : join base name ≠ "" := by
  rw [join, if_neg (by simp [h.isAbsolute_eq])]
  split_ifs <;> simp [h.ne_empty]

theorem isAbsolute_join_of_isAbsolute {base : Path} (h : isAbsolute base = true) (path : Path) :
    isAbsolute (join base path) = true := by
  rw [join]
  split_ifs with hpath
  · exact hpath
  all_goals
    obtain ⟨rest, hbase⟩ := List.head?_eq_some_iff.mp (beq_iff_eq.mp h)
    simp [isAbsolute, hbase]

/-- A path that ends in a name is separated by a slash from what is joined to it. -/
theorem join_join {base last : String} (hlast : IsName last) (h : IsName name) :
    join (join base last) name = join base last ++ "/" ++ name := by
  by_cases hbase : base = ""
  · have hjoin : join base last = last := by
      rw [hbase, join, if_neg (by simp [hlast.isAbsolute_eq])]
      simp
    rw [hjoin]
    exact join_of_getLast? hlast.ne_empty (getLast?_ne_slash hlast) h
  · obtain ⟨front, hfront⟩ := exists_join_eq hbase
    rw [hfront hlast]
    refine join_of_getLast? (by simp) ?_ h
    rw [String.toList_append, List.getLast?_append_of_ne_nil _ (by simpa using hlast.ne_empty)]
    exact getLast?_ne_slash hlast

theorem join_spelled (hnames : ∀ name ∈ names, IsName name) (h : IsName name) :
    join (spelled names) name = spelled (names ++ [name]) := by
  rcases List.eq_nil_or_concat names with rfl | ⟨front, last, rfl⟩
  · have hroot : spelled [] = "/" := by decide
    rw [hroot, join, if_neg (by simp [h.isAbsolute_eq]), if_pos (by decide), spelled,
      List.nil_append, String.intercalate_singleton]
  rw [List.concat_eq_append] at hnames ⊢
  have hconcat : spelled (front ++ [last] ++ [name]) = _ := spelled_concat (by simp) name
  rw [hconcat]
  have hlast := hnames last (by simp)
  obtain ⟨before, hbefore⟩ : ∃ before, spelled (front ++ [last]) = before ++ last := by
    by_cases hfront : front = []
    · exact ⟨"/", by rw [hfront, spelled, List.nil_append, String.intercalate_singleton]⟩
    · exact ⟨_, spelled_concat hfront last⟩
  refine join_of_getLast? (by simp [spelled]) ?_ h
  rw [hbefore, String.toList_append,
    List.getLast?_append_of_ne_nil _ (by simpa using hlast.ne_empty)]
  exact getLast?_ne_slash hlast

theorem fileName?_spelled (hdots : name ≠ "..") (h : ∀ n ∈ names ++ [name], IsName n) :
    fileName? (spelled (names ++ [name])) = some name := by
  have hname := h name (by simp)
  rw [fileName?, backwards, pieces_spelled (by simp) h, List.drop_one, List.tail_cons,
    List.reverse_append, List.reverse_singleton, List.singleton_append,
    List.dropWhile_cons_of_neg (by simp [hname.inert])]
  simp [hname.inert, hdots]

end Path

namespace Os

open PluginWorkshop.Path (IsName spelled spelledSize)

variable {machine : Machine} {tree : FileTree} {here place : Place} {piece name : String}
  {pieces : List String} {path : Path}

/-! ## Names that paths lead to -/

/-- A name under which there can be an entry. -/
structure IsEntryName (name : String) : Prop extends IsName name where
  ne_dots : name ≠ ".."
  size : name.utf8ByteSize ≤ maxNameBytes

/-- A walk along pieces without slashes ends at entry names, if it starts at some. -/
theorem isEntryName_of_walk (hhere : ∀ name ∈ here, IsEntryName name)
    (hpieces : ∀ piece ∈ pieces, '/' ∉ piece.toList) (h : walk tree here pieces = .ok place) :
    ∀ name ∈ place, IsEntryName name := by
  induction pieces generalizing here with
  | nil =>
    obtain rfl := Except.ok.inj h
    exact hhere
  | cons piece pieces ih =>
    obtain ⟨next, hstep, h⟩ := walk_cons_eq_ok.mp h
    refine ih (fun name hname => ?_) (fun p hp => hpieces p (List.mem_cons_of_mem _ hp)) h
    obtain ⟨-, ⟨-, rfl⟩ | ⟨-, rfl⟩ | ⟨hinert, hdots, hsize, rfl, -⟩⟩ := step_eq_ok.mp hstep
    · exact hhere name hname
    · exact hhere name (List.mem_of_mem_dropLast hname)
    · rcases List.mem_append.mp hname with hname | hname
      · exact hhere name hname
      · obtain rfl := List.mem_singleton.mp hname
        exact ⟨⟨hpieces name List.mem_cons_self, hinert⟩, hdots, hsize⟩

theorem isEntryName_of_locate (hstart : ∀ name ∈ startOf machine path, IsEntryName name)
    (h : locate machine path = .ok place) : ∀ name ∈ place, IsEntryName name :=
  isEntryName_of_walk hstart (fun _ => Path.slash_notMem_of_mem_pieces) (locate_eq_ok.mp h).2

/-- No step adds more to a place than its piece. -/
theorem spelledSize_namedStep_le (here : Place) (piece : String) :
    spelledSize (namedStep here piece) ≤ spelledSize here + (1 + piece.utf8ByteSize) := by
  rw [namedStep]
  split_ifs
  · omega
  · rcases List.eq_nil_or_concat here with rfl | ⟨before, last, rfl⟩
    · simp
    · rw [List.concat_eq_append, List.dropLast_concat, Path.spelledSize_append]
      omega
  · rw [Path.spelledSize_append, spelledSize, spelledSize, Nat.add_zero]

theorem spelledSize_foldl_le (pieces : List String) (here : Place) :
    spelledSize (pieces.foldl namedStep here) ≤ spelledSize here + spelledSize pieces := by
  induction pieces generalizing here with
  | nil => simp [spelledSize]
  | cons piece pieces ih =>
    have hstep := spelledSize_namedStep_le here piece
    have hrest := ih (namedStep here piece)
    simp only [List.foldl_cons, spelledSize] at hstep hrest ⊢
    omega

theorem mem_of_mem_foldl_namedStep (h : name ∈ pieces.foldl namedStep here) :
    name ∈ here ∨ name ∈ pieces := by
  induction pieces generalizing here with
  | nil => exact Or.inl h
  | cons piece pieces ih =>
    rcases ih h with h | h
    · rw [namedStep] at h
      split_ifs at h
      · exact Or.inl h
      · exact Or.inl (List.mem_of_mem_dropLast h)
      · rcases List.mem_append.mp h with h | h
        · exact Or.inl h
        · exact Or.inr (by simp [List.mem_singleton.mp h])
    · exact Or.inr (List.mem_cons_of_mem _ h)

/-! ## Following a canonical path -/

theorem walk_names (hnames : ∀ name ∈ place, IsEntryName name)
    (h : tree.nodeAt (here ++ place) ≠ none) : walk tree here place = .ok (here ++ place) := by
  induction place generalizing here with
  | nil => simp [walk]
  | cons name place ih =>
    have hname := hnames name List.mem_cons_self
    have hhere : tree.nodeAt here = some .directory := by
      by_contra hne
      exact h (FileTree.nodeAt_append_eq_none (List.cons_ne_nil name place) hne)
    have hnext : tree.nodeAt (here ++ [name]) ≠ none := by
      intro hnone
      cases place with
      | nil => exact h hnone
      | cons next place =>
        refine h ?_
        rw [List.append_cons here name]
        exact FileTree.nodeAt_append_eq_none (List.cons_ne_nil _ _) (by simp [hnone])
    have hstep : step tree here name = .ok (here ++ [name]) :=
      step_eq_ok.mpr ⟨hhere, Or.inr (Or.inr ⟨hname.inert, hname.ne_dots, hname.size, rfl, hnext⟩)⟩
    refine walk_cons_eq_ok.mpr ⟨here ++ [name], hstep, ?_⟩
    rw [ih (fun n hn => hnames n (List.mem_cons_of_mem _ hn)) (by simpa using h)]
    simp

/-- The canonical path of a place leads there. -/
theorem locate_spelled (hne : place ≠ []) (hnames : ∀ name ∈ place, IsEntryName name)
    (hcheck : checkPath (spelled place) = .ok ()) (h : machine.tree.nodeAt place ≠ none) :
    locate machine (spelled place) = .ok place := by
  refine locate_eq_ok.mpr ⟨hcheck, ?_⟩
  have hroot : machine.tree.nodeAt [] = some .directory := by
    by_contra hroot
    have hnone := FileTree.nodeAt_append_eq_none hne hroot
    exact h hnone
  rw [startOf, Path.isAbsolute_spelled, if_pos rfl,
    Path.pieces_spelled hne fun name hname => (hnames name hname).toIsName, walk_cons, step, hroot]
  exact walk_names hnames h

/-- The absolute path of what a path names leads there as well. That is so for every absolute path,
and for a relative one unless the absolute path is too long. -/
def HasCanonical (machine : Machine) (path : Path) : Prop :=
  ∀ place, locate machine path = .ok place → locate machine (spelled place) = .ok place

theorem hasCanonical_of_checkPath (hstart : ∀ name ∈ startOf machine path, IsEntryName name)
    (hcheck : ∀ place, locate machine path = .ok place → checkPath (spelled place) = .ok ()) :
    HasCanonical machine path := by
  intro place h
  by_cases hplace : place = []
  · -- A path to the root has come past a directory, so that the root is one.
    subst hplace
    refine locate_root ?_
    cases hnode : machine.tree.nodeAt [] with
    | none => exact absurd hnode (nodeAt_of_locate h)
    | some node =>
      cases node with
      | directory => rfl
      | file content modified =>
        obtain ⟨directory, name, -, hnil, -⟩ := target_of_locate h hnode
        simp at hnil
  · exact locate_spelled hplace (isEntryName_of_locate hstart h) (hcheck place h)
      (nodeAt_of_locate h)

theorem hasCanonical_of_isAbsolute (hpath : Path.isAbsolute path = true) :
    HasCanonical machine path := by
  have hstart : startOf machine path = [] := if_pos hpath
  refine hasCanonical_of_checkPath (by simp [hstart]) fun place h => ?_
  obtain ⟨hnul, hne, hsize⟩ := checkPath_eq_ok.mp (locate_eq_ok.mp h).1
  obtain ⟨rest, hpieces, hrest⟩ := Path.exists_spelledSize_of_isAbsolute hpath
  have hnamed : place = rest.foldl namedStep [] := by
    have := locate_eq_namedPlace h
    rwa [namedPlace, hstart, hpieces] at this
  refine checkPath_eq_ok.mpr ⟨fun hmem => ?_, by simp [spelled], ?_⟩
  · obtain ⟨name, hname, hmem⟩ := (Path.mem_spelled_iff (by decide)).mp hmem
    rw [hnamed] at hname
    have hpiece : name ∈ Path.pieces path := by
      rw [hpieces]
      exact List.mem_cons_of_mem _ ((mem_of_mem_foldl_namedStep hname).resolve_left (by simp))
    exact hnul ((Path.mem_iff_exists_pieces (by decide) path).mpr ⟨name, hpiece, hmem⟩)
  · by_cases hplace : place = []
    · rw [hplace]
      decide
    · have hle := spelledSize_foldl_le rest []
      rw [← hnamed, show spelledSize [] = 0 from rfl] at hle
      rw [Path.utf8ByteSize_spelled hplace]
      omega

theorem HasCanonical.isEntryName (hcanonical : HasCanonical machine path)
    (h : locate machine path = .ok place) : ∀ name ∈ place, IsEntryName name := by
  have hstart : startOf machine (spelled place) = [] := if_pos (Path.isAbsolute_spelled place)
  exact isEntryName_of_locate (by simp [hstart]) (hcanonical place h)

/-- What is found in a directory is found below the canonical path of the directory as well. -/
theorem entryAt_join_spelled {directory : Path} {file : String} {entry : FileTree}
    (hdirectory : directory ≠ "") (hfile : IsName file) (hdots : file ≠ "..")
    (hcanonical : HasCanonical machine (directory ++ "/" ++ file))
    (hentry : entryAt machine (directory ++ "/" ++ file) = .ok entry) :
    ∃ place, locate machine directory = .ok place ∧ (∀ name ∈ place, IsName name) ∧
      entryAt machine (Path.join (spelled place) file) = .ok entry := by
  obtain ⟨there, hthere, hget⟩ := entryAt_eq_ok.mp hentry
  obtain ⟨place, hlocate, hwalk⟩ := locate_append hdirectory hthere
  obtain rfl : there = place ++ [file] := by
    rw [hfile.pieces_eq, walk_singleton] at hwalk
    rw [step_eq_namedStep hwalk, namedStep, if_neg (by simp [hfile.inert]), if_neg hdots]
  have hnames := hcanonical.isEntryName hthere
  have hplace : ∀ name ∈ place, IsName name :=
    fun name hname => (hnames name (by simp [hname])).toIsName
  refine ⟨place, hlocate, hplace, ?_⟩
  rw [Path.join_spelled hplace hfile]
  exact entryAt_eq_ok.mpr ⟨_, hcanonical _ hthere, hget⟩

end Os

end PluginWorkshop
