import PluginWorkshop.Machine.Files
import PluginWorkshop.Proofs.Machine.Paths
import PluginWorkshop.Proofs.Machine.Walking

/-!
# The place that a path spells

As there are no links, a path that can be followed leads to the place that its pieces spell
(`locate_eq_namedPlace`), in one tree as in another. In a tree with more in it, every path that
could be followed before leads where it led (`walk_of_extends`).
-/

namespace PluginWorkshop.Os

open FileTree (Node)

variable {tree tree' : FileTree} {here place : Place} {piece : String} {pieces : List String}
  {machine machine' : Machine} {path : Path}

/-! ## Spelling -/

/-- The place that a piece of a path names from another place. -/
def namedStep (here : Place) (piece : String) : Place :=
  if Path.isInert piece then here else if piece = ".." then here.dropLast else here ++ [piece]

/-- The place that a path names, whatever is there. -/
def namedPlace (machine : Machine) (path : Path) : Place :=
  (Path.pieces path).foldl namedStep (startOf machine path)

theorem step_eq_namedStep (h : step tree here piece = .ok place) :
    place = namedStep here piece := by
  rw [namedStep]
  obtain ⟨-, ⟨hinert, rfl⟩ | ⟨rfl, rfl⟩ | ⟨hinert, hdots, -, rfl, -⟩⟩ := step_eq_ok.mp h
  · rw [if_pos hinert]
  · rw [if_neg (by decide), if_pos rfl]
  · rw [if_neg (by simp [hinert]), if_neg hdots]

theorem walk_eq_foldl (h : walk tree here pieces = .ok place) :
    place = pieces.foldl namedStep here := by
  induction pieces generalizing here with
  | nil => exact (Except.ok.inj h).symm
  | cons piece pieces ih =>
    obtain ⟨next, hstep, h⟩ := walk_cons_eq_ok.mp h
    rw [List.foldl_cons, ← step_eq_namedStep hstep]
    exact ih h

theorem locate_eq_namedPlace (h : locate machine path = .ok place) :
    place = namedPlace machine path :=
  walk_eq_foldl (locate_eq_ok.mp h).2

/-- Only the working directory counts for the spelling. -/
theorem namedPlace_congr (hcwd : machine'.cwd = machine.cwd) (path : Path) :
    namedPlace machine' path = namedPlace machine path := by
  rw [namedPlace, namedPlace, startOf, startOf, hcwd]

/-! ## Larger trees -/

/-- What is there in the first tree is there in the second, as a directory or as a file. -/
def Extends (tree tree' : FileTree) : Prop :=
  ∀ ⦃place node⦄, tree.nodeAt place = some node →
    ∃ node', tree'.nodeAt place = some node' ∧ node'.isDirectory = node.isDirectory

theorem Extends.refl (tree : FileTree) : Extends tree tree := fun _ node h => ⟨node, h, rfl⟩

theorem Extends.trans {tree'' : FileTree} (h : Extends tree tree') (h' : Extends tree' tree'') :
    Extends tree tree'' := by
  intro place node hnode
  obtain ⟨node', hnode', hdir⟩ := h hnode
  obtain ⟨node'', hnode'', hdir'⟩ := h' hnode'
  exact ⟨node'', hnode'', hdir'.trans hdir⟩

theorem Extends.directory (h : Extends tree tree') (hplace : tree.nodeAt place = some .directory) :
    tree'.nodeAt place = some .directory := by
  obtain ⟨node', hnode', hdir⟩ := h hplace
  cases node' with
  | file content modified => cases hdir
  | directory => exact hnode'

theorem extends_put {name : String} {entry : FileTree} (hplace : tree.nodeAt place = some .directory)
    (hnone : tree.nodeAt (place ++ [name]) = none) (hentry : entry.entries = []) :
    Extends tree (tree.put place name entry) := by
  intro q node hnode
  refine ⟨node, ?_, rfl⟩
  rw [FileTree.nodeAt_put hplace (by simp [hnone]) hentry, if_neg ?_, hnode]
  rintro rfl
  simp [hnone] at hnode

theorem step_of_extends (hextends : Extends tree tree') (h : step tree here piece = .ok place) :
    step tree' here piece = .ok place := by
  obtain ⟨hdir, hplace⟩ := step_eq_ok.mp h
  refine step_eq_ok.mpr ⟨hextends.directory hdir, ?_⟩
  obtain hinert | hdots | ⟨hinert, hdots, hsize, heq, hsome⟩ := hplace
  · exact Or.inl hinert
  · exact Or.inr (Or.inl hdots)
  · obtain ⟨node, hnode⟩ := Option.ne_none_iff_exists'.mp hsome
    obtain ⟨node', hnode', -⟩ := hextends hnode
    exact Or.inr (Or.inr ⟨hinert, hdots, hsize, heq, by simp [hnode']⟩)

theorem walk_of_extends (hextends : Extends tree tree') (h : walk tree here pieces = .ok place) :
    walk tree' here pieces = .ok place := by
  induction pieces generalizing here with
  | nil => exact h
  | cons piece pieces ih =>
    obtain ⟨next, hstep, h⟩ := walk_cons_eq_ok.mp h
    exact walk_cons_eq_ok.mpr ⟨next, step_of_extends hextends hstep, ih h⟩

theorem locate_of_extends (hextends : Extends machine.tree machine'.tree)
    (hcwd : machine'.cwd = machine.cwd) (h : locate machine path = .ok place) :
    locate machine' path = .ok place := by
  obtain ⟨hcheck, hwalk⟩ := locate_eq_ok.mp h
  refine locate_eq_ok.mpr ⟨hcheck, ?_⟩
  rw [startOf, hcwd]
  exact walk_of_extends hextends hwalk

/-! ## Entries to be made or removed -/

variable {name : String} {slash : Bool}

/-- The last piece that counts is a name, and those before it lead to a directory. -/
theorem target_eq_name : target machine path = .ok (place, .name name slash) ↔
    checkPath path = .ok () ∧ ∃ before,
      (Path.pieces path).reverse.dropWhile (· == "") = name :: before ∧
      walk machine.tree (startOf machine path) before.reverse = .ok place ∧
      machine.tree.nodeAt place = some .directory ∧ name ≠ "." ∧ name ≠ ".." ∧
      name.utf8ByteSize ≤ maxNameBytes ∧ slash = ((Path.pieces path).reverse.head? == some "") := by
  constructor
  · intro h
    obtain ⟨hcheck, last, before, hback, hwalk, hdir⟩ := exists_walk_of_target h (by simp)
    rw [target_of_walk hcheck hback hwalk hdir] at h
    split_ifs at h with hdot hdots hsize
    · simp at h
    · simp at h
    · simp only [Except.ok.injEq, Prod.mk.injEq, LastPiece.name.injEq, true_and] at h
      obtain ⟨rfl, rfl⟩ := h
      exact ⟨hcheck, before, hback, hwalk, hdir, hdot, hdots, by omega, rfl⟩
  · rintro ⟨hcheck, before, hback, hwalk, hdir, hdot, hdots, hsize, rfl⟩
    rw [target_of_walk hcheck hback hwalk hdir, if_neg hdot, if_neg hdots, if_neg (by omega)]

theorem target_of_extends (hextends : Extends machine.tree machine'.tree)
    (hcwd : machine'.cwd = machine.cwd) (h : target machine path = .ok (place, .name name slash)) :
    target machine' path = .ok (place, .name name slash) := by
  rw [target_eq_name] at h ⊢
  obtain ⟨hcheck, before, hback, hwalk, hdir, hname⟩ := h
  refine ⟨hcheck, before, hback, ?_, hextends.directory hdir, hname⟩
  rw [startOf, hcwd]
  exact walk_of_extends hextends hwalk

/-- The pieces of a path to an entry: those before it, its name, and empty ones. -/
theorem exists_pieces_of_target (h : target machine path = .ok (place, .name name slash)) :
    ∃ before n, Path.pieces path = before ++ name :: List.replicate n "" ∧
      (slash = false → n = 0) ∧
      walk machine.tree (startOf machine path) before = .ok place ∧ Path.isInert name = false := by
  rw [target_eq_name] at h
  obtain ⟨-, before, hback, hwalk, -, hdot, -, -, hslash⟩ := h
  have hsplit := List.takeWhile_append_dropWhile (p := (· == "")) (l := (Path.pieces path).reverse)
  have hname : name ≠ "" := by
    have := List.head?_dropWhile_not (· == "") (Path.pieces path).reverse
    simpa [hback] using this
  rw [hback] at hsplit
  refine ⟨before.reverse, ((Path.pieces path).reverse.takeWhile (· == "")).length, ?_, ?_, hwalk,
    by simp [Path.isInert, hname, hdot]⟩
  · have hempty : (Path.pieces path).reverse.takeWhile (· == "") =
        List.replicate ((Path.pieces path).reverse.takeWhile (· == "")).length "" :=
      List.eq_replicate_iff.mpr ⟨rfl, fun piece hpiece => by
        simpa using List.mem_takeWhile_imp hpiece⟩
    generalize (Path.pieces path).reverse.takeWhile (· == "") = empties at hsplit hempty
    rw [← List.reverse_reverse (Path.pieces path), ← hsplit, hempty]
    simp
  · intro hfalse
    rw [hfalse] at hslash
    cases hpieces : (Path.pieces path).reverse with
    | nil => simp
    | cons piece rest =>
      rw [hpieces] at hslash
      rw [List.takeWhile_cons_of_neg (by simpa using hslash.symm), List.length_nil]

theorem target_eq_namedPlace (h : target machine path = .ok (place, .name name slash)) :
    place ++ [name] = namedPlace machine path := by
  obtain ⟨before, n, hpieces, -, hwalk, hinert⟩ := exists_pieces_of_target h
  rw [target_eq_name] at h
  obtain ⟨-, -, -, -, -, -, hdots, -⟩ := h
  have hempties : ∀ n place, (List.replicate n "").foldl namedStep place = place := by
    intro n
    induction n with
    | zero => simp
    | succ n ih => 
      intro place
      rw [List.replicate_succ, List.foldl_cons, ih]
      rfl
  rw [namedPlace, hpieces, List.foldl_append, ← walk_eq_foldl hwalk, List.foldl_cons, hempties,
    namedStep, if_neg (by simp [hinert]), if_neg hdots]

theorem walk_replicate_empty (n : Nat) (h : tree.nodeAt place = some .directory) :
    walk tree place (List.replicate n "") = .ok place := by
  induction n with
  | zero => rfl
  | succ n ih =>
    rw [List.replicate_succ, walk_cons, step, h]
    exact ih

/-- A path leads to the entry that it names, if that is there and no file with a slash after it. -/
theorem locate_of_target (h : target machine path = .ok (place, .name name slash))
    (hnode : slash = false ∧ machine.tree.nodeAt (place ++ [name]) ≠ none ∨
      machine.tree.nodeAt (place ++ [name]) = some .directory) :
    locate machine path = .ok (place ++ [name]) := by
  obtain ⟨before, n, hpieces, hslash, hwalk, hinert⟩ := exists_pieces_of_target h
  rw [target_eq_name] at h
  obtain ⟨hcheck, -, -, -, hdir, -, hdots, hsize, -⟩ := h
  have hsome : machine.tree.nodeAt (place ++ [name]) ≠ none := by
    rcases hnode with ⟨-, hsome⟩ | hdir
    · exact hsome
    · simp [hdir]
  have hstep : step machine.tree place name = .ok (place ++ [name]) :=
    step_eq_ok.mpr ⟨hdir, Or.inr (Or.inr ⟨hinert, hdots, hsize, rfl, hsome⟩)⟩
  refine locate_eq_ok.mpr ⟨hcheck, ?_⟩
  rw [hpieces, walk_append, hwalk]
  change walk machine.tree place (name :: List.replicate n "") = _
  rw [walk_cons, hstep]
  change walk machine.tree (place ++ [name]) (List.replicate n "") = _
  rcases hnode with ⟨hfalse, -⟩ | hdir
  · rw [hslash hfalse]
    rfl
  · exact walk_replicate_empty n hdir

/-- What stands at a path is the entry under its last name. -/
theorem entryAt_of_target (h : target machine path = .ok (place, .name name false)) :
    entryAt machine path = match machine.tree.get? (place ++ [name]) with
      | some entry => .ok entry
      | none => .error .notFound := by
  cases hget : machine.tree.get? (place ++ [name]) with
  | some entry =>
    have hnode : machine.tree.nodeAt (place ++ [name]) ≠ none := by
      simp [FileTree.nodeAt, hget]
    exact entryAt_eq_ok.mpr ⟨_, locate_of_target h (Or.inl ⟨rfl, hnode⟩), hget⟩
  | none =>
    obtain ⟨before, n, hpieces, hslash, hwalk, hinert⟩ := exists_pieces_of_target h
    rw [target_eq_name] at h
    obtain ⟨hcheck, -, -, -, hdir, -, hdots, hsize, -⟩ := h
    have hstep : step machine.tree place name = .error .notFound := by
      rw [step, hdir]
      dsimp only
      rw [if_neg (by simp [hinert]), if_neg hdots, if_neg (by omega),
        if_pos (by simp [FileTree.nodeAt, hget])]
    have hlocate : locate machine path = .error .notFound := by
      rw [locate, hcheck]
      change walk _ _ _ = _
      rw [hpieces, hslash rfl, walk_append, hwalk]
      change walk machine.tree place [name] = _
      rw [walk_singleton, hstep]
    rw [entryAt, hlocate]
    rfl

/-! ## Trees with the same directories -/

/-- What is a directory in the first tree is one in the second. -/
def KeepsDirectories (tree tree' : FileTree) : Prop :=
  ∀ ⦃place⦄, tree.nodeAt place = some .directory → tree'.nodeAt place = some .directory

/-- A walk that ends at a directory has come past directories only. -/
theorem walk_of_keepsDirectories (hkeeps : KeepsDirectories tree tree')
    (h : walk tree here pieces = .ok place) (hplace : tree.nodeAt place = some .directory) :
    walk tree' here pieces = .ok place ∧ tree.nodeAt here = some .directory := by
  induction pieces generalizing here with
  | nil =>
    obtain rfl := Except.ok.inj h
    exact ⟨rfl, hplace⟩
  | cons piece pieces ih =>
    obtain ⟨next, hstep, h⟩ := walk_cons_eq_ok.mp h
    obtain ⟨hwalk, hnext⟩ := ih h
    obtain ⟨hdir, hnamed⟩ := step_eq_ok.mp hstep
    refine ⟨walk_cons_eq_ok.mpr ⟨next, step_eq_ok.mpr ⟨hkeeps hdir, ?_⟩, hwalk⟩, hdir⟩
    obtain hinert | hdots | ⟨hinert, hdots, hsize, heq, -⟩ := hnamed
    · exact Or.inl hinert
    · exact Or.inr (Or.inl hdots)
    · exact Or.inr (Or.inr ⟨hinert, hdots, hsize, heq, by simp [hkeeps hnext]⟩)

theorem target_of_keepsDirectories (hkeeps : KeepsDirectories machine.tree machine'.tree)
    (hcwd : machine'.cwd = machine.cwd) (h : target machine path = .ok (place, .name name slash)) :
    target machine' path = .ok (place, .name name slash) := by
  rw [target_eq_name] at h ⊢
  obtain ⟨hcheck, before, hback, hwalk, hdir, hname⟩ := h
  refine ⟨hcheck, before, hback, ?_, hkeeps hdir, hname⟩
  rw [startOf, hcwd]
  exact (walk_of_keepsDirectories hkeeps hwalk hdir).1

theorem keepsDirectories_put {content : ByteArray} {modified : Time}
    (hplace : tree.nodeAt place = some .directory)
    (hold : tree.nodeAt (place ++ [name]) ≠ some .directory) :
    KeepsDirectories tree (tree.put place name (.file content modified)) := by
  intro q hq
  rw [FileTree.nodeAt_put hplace hold rfl, if_neg (by rintro rfl; exact hold hq), hq]

/-- A file that stays in its place is found by the path that led to it. -/
theorem entryAt_of_keepsDirectories {content content' : ByteArray} {modified modified' : Time}
    (hkeeps : KeepsDirectories machine.tree machine'.tree) (hcwd : machine'.cwd = machine.cwd)
    (hlocate : locate machine path = .ok place)
    (hfile : machine.tree.nodeAt place = some (.file content modified))
    (hfile' : machine'.tree.nodeAt place = some (.file content' modified')) :
    entryAt machine' path = .ok (.file content' modified') := by
  obtain ⟨directory, name, htarget, rfl, -⟩ := target_of_locate hlocate hfile
  rw [entryAt_of_target (target_of_keepsDirectories hkeeps hcwd htarget),
    FileTree.nodeAt_eq_file.mp hfile']

/-! ## Paths that can be followed -/

theorem nodeAt_of_step (h : step tree here piece = .ok place) : tree.nodeAt place ≠ none := by
  obtain ⟨hdir, ⟨-, rfl⟩ | ⟨-, rfl⟩ | ⟨-, -, -, -, hsome⟩⟩ := step_eq_ok.mp h
  · simp [hdir]
  · rcases parent_isDirectory (show tree.nodeAt here ≠ none by simp [hdir]) with rfl | hparent
    · simp [hdir]
    · simp [hparent]
  · exact hsome

/-- A path that can be followed leads to something. -/
theorem nodeAt_of_locate (h : locate machine path = .ok place) :
    machine.tree.nodeAt place ≠ none := by
  obtain ⟨-, hwalk⟩ := locate_eq_ok.mp h
  obtain ⟨before, last, hpieces⟩ := (List.eq_nil_or_concat _).resolve_left (pieces_ne_nil path)
  rw [hpieces, List.concat_eq_append] at hwalk
  obtain ⟨directory, -, hstep⟩ := walk_append_eq_ok.mp hwalk
  rw [walk_singleton] at hstep
  exact nodeAt_of_step hstep

/-- There is something at a path exactly if it can be followed. -/
theorem fileExists_iff :
    fileExists machine path = true ↔ ∃ place, locate machine path = .ok place := by
  have hentry : fileExists machine path = true ↔ ∃ entry, entryAt machine path = .ok entry := by
    rw [fileExists]
    cases entryAt machine path <;> simp [Except.toBool]
  rw [hentry]
  constructor
  · rintro ⟨entry, h⟩
    obtain ⟨place, hplace, -⟩ := entryAt_eq_ok.mp h
    exact ⟨place, hplace⟩
  · rintro ⟨place, hplace⟩
    obtain ⟨entry, hget⟩ := Option.ne_none_iff_exists'.mp
      (mt FileTree.nodeAt_eq_none.mpr (nodeAt_of_locate hplace))
    exact ⟨entry, entryAt_eq_ok.mpr ⟨place, hplace, hget⟩⟩

theorem checkPath_eq_ok : checkPath path = .ok () ↔
    '\x00' ∉ path.toList ∧ path ≠ "" ∧ path.utf8ByteSize < pathBytesLimit := by
  rw [checkPath]
  split_ifs with hnul hempty hsize
  · simp_all
  · simp_all
  · simp_all
  · simp_all

theorem startOf_append {rest : Path} (hpath : path ≠ "") :
    startOf machine (path ++ "/" ++ rest) = startOf machine path := by
  obtain ⟨c, chars, hchars⟩ := List.exists_cons_of_ne_nil (mt String.toList_eq_nil_iff.mp hpath)
  simp [startOf, Path.isAbsolute, hchars]

theorem startOf_slash_append (machine : Machine) (rest : Path) :
    startOf machine ("/" ++ rest) = [] := by
  simp [startOf, Path.isAbsolute]

theorem locate_append {rest : Path} (hpath : path ≠ "")
    (h : locate machine (path ++ "/" ++ rest) = .ok place) :
    ∃ place', locate machine path = .ok place' ∧
      walk machine.tree place' (Path.pieces rest) = .ok place := by
  obtain ⟨hcheck, hwalk⟩ := locate_eq_ok.mp h
  obtain ⟨hnul, -, hsize⟩ := checkPath_eq_ok.mp hcheck
  have hcheck' : checkPath path = .ok () := by
    refine checkPath_eq_ok.mpr ⟨fun hmem => hnul (by simp [hmem]), hpath, ?_⟩
    rw [String.utf8ByteSize_append, String.utf8ByteSize_append] at hsize
    omega
  rw [startOf_append hpath, Path.pieces_append] at hwalk
  obtain ⟨place', hbefore, hwalk⟩ := walk_append_eq_ok.mp hwalk
  exact ⟨place', locate_eq_ok.mpr ⟨hcheck', hbefore⟩, hwalk⟩

theorem locate_root (hroot : machine.tree.nodeAt [] = some .directory) :
    locate machine "/" = .ok [] := by
  refine locate_eq_ok.mpr ⟨by decide, ?_⟩
  have hpieces : Path.pieces "/" = ["", ""] := by decide
  have hstart : startOf machine "/" = [] := by simp [startOf, Path.isAbsolute]
  rw [hstart, hpieces, walk_cons, step, hroot]
  exact walk_replicate_empty 1 hroot

/-- The parent of a path that can be followed can be followed. -/
theorem locate_parent {parent : Path} (hparent : Path.parent? path = some parent)
    (hne : parent ≠ "") (h : locate machine path = .ok place) :
    ∃ place', locate machine parent = .ok place' := by
  rcases Path.exists_append_of_parent? hparent hne with ⟨rest, rfl⟩ | ⟨rfl, rest, rfl⟩
  · obtain ⟨place', h', -⟩ := locate_append hne h
    exact ⟨place', h'⟩
  · obtain ⟨-, hwalk⟩ := locate_eq_ok.mp h
    have hpieces : Path.pieces ("/" ++ rest) = "" :: Path.pieces rest := by
      simpa [show Path.pieces "" = [""] by decide] using Path.pieces_append "" rest
    rw [hpieces, startOf_slash_append] at hwalk
    obtain ⟨place', hstep, -⟩ := walk_cons_eq_ok.mp hwalk
    exact ⟨[], locate_root (step_eq_ok.mp hstep).1⟩

end PluginWorkshop.Os
