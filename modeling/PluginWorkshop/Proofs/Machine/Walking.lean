import PluginWorkshop.Proofs.Machine.Actions
import PluginWorkshop.Proofs.Machine.Trees

/-!
# Following paths

A path is followed piece by piece (`walk_cons`), and it leads to the same place in two trees that
have directories and files at the same places (`locate_congr`). A path that leads to a file names it
in its directory (`target_of_locate`).
-/

namespace PluginWorkshop

open FileTree (Node)

namespace FileTree.Node

def isDirectory : Node → Bool
  | file _ _ => false
  | directory => true

end FileTree.Node

namespace Os

variable {tree tree' : FileTree} {here place : Place} {piece : String} {pieces : List String}

/-! ## One piece after the other -/

/-- Follows one piece of a path. -/
def step (tree : FileTree) (here : Place) (piece : String) : Except OsError Place :=
  match tree.nodeAt here with
  | none => .error .notFound
  | some (.file _ _) => .error .notADirectory
  | some .directory =>
    if Path.isInert piece then .ok here
    else if piece = ".." then .ok here.dropLast
    else if maxNameBytes < piece.utf8ByteSize then .error .nameTooLong
    else if (tree.nodeAt (here ++ [piece])).isNone then .error .notFound
    else .ok (here ++ [piece])

theorem walk_cons (tree : FileTree) (here : Place) (piece : String) (pieces : List String) :
    walk tree here (piece :: pieces) = (step tree here piece).bind fun place =>
      walk tree place pieces := by
  rw [step, walk]
  cases h : tree.get? here with
  | none => simp [FileTree.nodeAt, h, Except.bind]
  | some entry =>
    cases entry with
    | file content modified => simp [FileTree.nodeAt, h, FileTree.node, Except.bind]
    | directory entries =>
      have hpiece : (tree.nodeAt (here ++ [piece])).isNone = (Entries.get? piece entries).isNone := by
        simp [FileTree.nodeAt, FileTree.get?_concat h]
      rw [FileTree.nodeAt_eq_directory.mpr ⟨entries, h⟩, hpiece]
      dsimp only
      split_ifs with _ _ _ hnone
      · rfl
      · rfl
      · rfl
      · rw [Option.isNone_iff_eq_none.mp hnone]
        rfl
      · obtain ⟨entry, hentry⟩ := Option.ne_none_iff_exists'.mp (by simpa using hnone)
        rw [hentry]
        rfl

theorem walk_cons_eq_ok : walk tree here (piece :: pieces) = .ok place ↔
    ∃ next, step tree here piece = .ok next ∧ walk tree next pieces = .ok place := by
  rw [walk_cons]
  exact Except.bind_eq_ok

theorem walk_append (tree : FileTree) (here : Place) (a b : List String) :
    walk tree here (a ++ b) = (walk tree here a).bind fun place => walk tree place b := by
  induction a generalizing here with
  | nil => rfl
  | cons piece a ih =>
    rw [List.cons_append, walk_cons, walk_cons]
    cases step tree here piece with
    | error e => rfl
    | ok place => exact ih place

theorem walk_append_eq_ok {a b : List String} : walk tree here (a ++ b) = .ok place ↔
    ∃ next, walk tree here a = .ok next ∧ walk tree next b = .ok place := by
  rw [walk_append]
  exact Except.bind_eq_ok

theorem walk_singleton (tree : FileTree) (here : Place) (piece : String) :
    walk tree here [piece] = step tree here piece := by
  rw [walk_cons]
  cases step tree here piece <;> rfl

/-! ## Trees of the same shape -/

/-- The trees have directories at the same places, and files at the same places. -/
def SameShape (tree tree' : FileTree) : Prop :=
  ∀ place, (tree.nodeAt place).map Node.isDirectory = (tree'.nodeAt place).map Node.isDirectory

theorem SameShape.file (h : SameShape tree tree') {place : Place} {content : ByteArray}
    {modified : Time} (hfile : tree.nodeAt place = some (.file content modified)) :
    ∃ content' modified', tree'.nodeAt place = some (.file content' modified') := by
  have hplace := h place
  rw [hfile] at hplace
  cases hnode : tree'.nodeAt place with
  | none => simp [hnode] at hplace
  | some node =>
    cases node with
    | file content' modified' => exact ⟨content', modified', rfl⟩
    | directory => simp [hnode, Node.isDirectory] at hplace

theorem SameShape.directory_iff (h : SameShape tree tree') {place : Place} :
    tree.nodeAt place = some .directory ↔ tree'.nodeAt place = some .directory := by
  have hdir : ∀ {node : Option Node}, node = some .directory ↔
      node.map Node.isDirectory = some true := by
    rintro (_ | _ | _) <;> simp [Node.isDirectory]
  rw [hdir, h place, ← hdir]

theorem step_congr (h : SameShape tree tree') (here : Place) (piece : String) :
    step tree here piece = step tree' here piece := by
  have hpiece : (tree.nodeAt (here ++ [piece])).isNone =
      (tree'.nodeAt (here ++ [piece])).isNone := by
    have := congrArg Option.isNone (h (here ++ [piece]))
    simpa using this
  have hhere := h here
  rw [step, step, hpiece]
  cases hn : tree.nodeAt here with
  | none =>
    obtain hn' : tree'.nodeAt here = none := by simpa [hn] using hhere.symm
    rw [hn']
  | some node =>
    obtain ⟨node', hn', hdir⟩ : ∃ node', tree'.nodeAt here = some node' ∧
        node'.isDirectory = node.isDirectory := by
      simpa [hn] using hhere.symm
    rw [hn']
    cases node <;> cases node' <;> simp_all [Node.isDirectory]

theorem walk_congr (h : SameShape tree tree') (here : Place) (pieces : List String) :
    walk tree here pieces = walk tree' here pieces := by
  induction pieces generalizing here with
  | nil => rfl
  | cons piece pieces ih =>
    rw [walk_cons, walk_cons, step_congr h here piece]
    cases step tree' here piece with
    | error e => rfl
    | ok place => exact ih place

/-! ## Where paths lead -/

variable {machine machine' : Machine} {path : Path}

theorem locate_eq_ok : locate machine path = .ok place ↔
    checkPath path = .ok () ∧
      walk machine.tree (startOf machine path) (Path.pieces path) = .ok place := by
  rw [locate]
  cases checkPath path <;> simp [bind, Except.bind]

theorem entryAt_eq_ok {entry : FileTree} : entryAt machine path = .ok entry ↔
    ∃ place, locate machine path = .ok place ∧ machine.tree.get? place = some entry := by
  rw [entryAt]
  cases locate machine path with
  | error e => simp [bind, Except.bind]
  | ok place => cases h : machine.tree.get? place <;> simp [bind, Except.bind, pure, Except.pure, h]

theorem locate_congr (hshape : SameShape machine.tree machine'.tree)
    (hcwd : machine.cwd = machine'.cwd) (path : Path) :
    locate machine path = locate machine' path := by
  rw [locate, locate, startOf, startOf, hcwd, walk_congr hshape]

theorem pieces_ne_nil (path : Path) : Path.pieces path ≠ [] := by
  simp [Path.pieces, Text.splitOn, Text.splitWhere_ne_nil]

theorem parent_isDirectory {place : Place} (h : tree.nodeAt place ≠ none) :
    place = [] ∨ tree.nodeAt place.dropLast = some .directory := by
  rcases List.eq_nil_or_concat place with rfl | ⟨front, name, rfl⟩
  · exact Or.inl rfl
  · rw [List.concat_eq_append] at h ⊢
    rw [List.dropLast_concat]
    exact Or.inr (by_contra fun hne =>
      h (FileTree.nodeAt_append_eq_none (List.cons_ne_nil name []) hne))

/-- A step leads nowhere, up, or to a name in the directory. -/
theorem step_eq_ok : step tree here piece = .ok place ↔
    tree.nodeAt here = some .directory ∧
      (Path.isInert piece = true ∧ place = here ∨ piece = ".." ∧ place = here.dropLast ∨
        Path.isInert piece = false ∧ piece ≠ ".." ∧ piece.utf8ByteSize ≤ maxNameBytes ∧
          place = here ++ [piece] ∧ tree.nodeAt place ≠ none) := by
  rw [step]
  constructor
  · intro h
    split at h
    · simp at h
    · simp at h
    · next hdir =>
      refine ⟨hdir, ?_⟩
      split_ifs at h with hinert hdots hsize hnone
      · exact Or.inl ⟨hinert, (Except.ok.inj h).symm⟩
      · exact Or.inr (Or.inl ⟨hdots, (Except.ok.inj h).symm⟩)
      · obtain rfl := Except.ok.inj h
        exact Or.inr (Or.inr ⟨by simpa using hinert, hdots, by omega, rfl, by simpa using hnone⟩)
  · rintro ⟨hdir, ⟨hinert, rfl⟩ | ⟨rfl, rfl⟩ | ⟨hinert, hdots, hsize, rfl, hsome⟩⟩
    · simp only [hdir, if_pos hinert]
    · simp only [hdir]
      rw [if_neg (by decide), if_pos trivial]
    · simp only [hdir]
      rw [if_neg (by simp [hinert]), if_neg hdots, if_neg (by omega), if_neg (by simp [hsome])]

/-- A step that ends at a file follows a name. -/
theorem of_step_isFile {content : ByteArray} {modified : Time}
    (hstep : step tree here piece = .ok place)
    (hfile : tree.nodeAt place = some (.file content modified)) :
    tree.nodeAt here = some .directory ∧ place = here ++ [piece] ∧ piece ≠ "" ∧ piece ≠ "." ∧
      piece ≠ ".." ∧ piece.utf8ByteSize ≤ maxNameBytes := by
  obtain ⟨hdir, ⟨-, rfl⟩ | ⟨-, rfl⟩ | ⟨hinert, hdots, hsize, rfl, -⟩⟩ := step_eq_ok.mp hstep
  · simp [hfile] at hdir
  · rcases parent_isDirectory (show tree.nodeAt here ≠ none by simp [hdir]) with rfl | hparent
    · rw [List.dropLast_nil, hdir] at hfile
      cases hfile
    · rw [hparent] at hfile
      cases hfile
  · simp only [Path.isInert, Bool.or_eq_false_iff, beq_eq_false_iff_ne] at hinert
    exact ⟨hdir, rfl, hinert.1, hinert.2, hdots, hsize⟩

/-- A path that leads to a file names it in its directory. -/
theorem target_of_locate {content : ByteArray} {modified : Time}
    (hpath : locate machine path = .ok place)
    (hfile : machine.tree.nodeAt place = some (.file content modified)) :
    ∃ directory name, target machine path = .ok (directory, .name name false) ∧
      place = directory ++ [name] ∧ machine.tree.nodeAt directory = some .directory := by
  obtain ⟨hcheck, hwalk⟩ := locate_eq_ok.mp hpath
  obtain ⟨before, last, hpieces⟩ := (List.eq_nil_or_concat _).resolve_left (pieces_ne_nil path)
  rw [List.concat_eq_append] at hpieces
  rw [hpieces] at hwalk
  obtain ⟨directory, hbefore, hstep⟩ := walk_append_eq_ok.mp hwalk
  rw [walk_singleton] at hstep
  obtain ⟨hdir, rfl, hempty, hdot, hdots, hsize⟩ := of_step_isFile hstep hfile
  obtain ⟨entries, hentries⟩ := FileTree.nodeAt_eq_directory.mp hdir
  refine ⟨directory, last, ?_, rfl, hdir⟩
  have hsize' : ¬ maxNameBytes < last.utf8ByteSize := by omega
  simp [target, hcheck, hpieces, hempty, hbefore, hentries, hdot, hdots, hsize', bind,
    Except.bind, pure, Except.pure]

/-- The last piece that counts, in the directory that those before it lead to. -/
theorem target_of_walk {before : List String} {last : String} (hcheck : checkPath path = .ok ())
    (hback : (Path.pieces path).reverse.dropWhile (· == "") = last :: before)
    (hwalk : walk machine.tree (startOf machine path) before.reverse = .ok place)
    (hplace : machine.tree.nodeAt place = some .directory) :
    target machine path = if last = "." then .ok (place, .dot)
      else if last = ".." then .ok (place, .dotDot)
      else if maxNameBytes < last.utf8ByteSize then .error .nameTooLong
      else .ok (place, .name last ((Path.pieces path).reverse.head? == some "")) := by
  obtain ⟨entries, hget⟩ := FileTree.nodeAt_eq_directory.mp hplace
  simp [target, hcheck, hback, hwalk, hget, bind, Except.bind, pure, Except.pure, throw, throwThe,
    MonadExceptOf.throw]

theorem exists_walk_of_target {last : LastPiece} (h : target machine path = .ok (place, last))
    (hlast : last ≠ .dot) : checkPath path = .ok () ∧ ∃ piece before,
      (Path.pieces path).reverse.dropWhile (· == "") = piece :: before ∧
      walk machine.tree (startOf machine path) before.reverse = .ok place ∧
      machine.tree.nodeAt place = some .directory := by
  rw [target] at h
  obtain ⟨⟨⟩, hcheck, h⟩ := Except.bind_eq_ok.mp h
  refine ⟨hcheck, ?_⟩
  dsimp only at h
  split at h
  · obtain ⟨-, rfl⟩ := Prod.mk.inj (Except.ok.inj h)
    exact absurd rfl hlast
  next piece before hback =>
  obtain ⟨directory, hwalk, h⟩ := Except.bind_eq_ok.mp h
  match hget : machine.tree.get? directory, h with
  | none, h | some (.file _ _), h => cases h
  | some (.directory entries), h =>
    obtain rfl : directory = place := by
      dsimp only at h
      split_ifs at h <;> cases h <;> rfl
    exact ⟨piece, before, hback, hwalk, FileTree.nodeAt_eq_directory.mpr ⟨entries, hget⟩⟩

theorem target_isDirectory {last : LastPiece} (h : target machine path = .ok (place, last))
    (hlast : last ≠ .dot) : machine.tree.nodeAt place = some .directory := by
  obtain ⟨-, _, _, -, -, hdir⟩ := exists_walk_of_target h hlast
  exact hdir

theorem sameShape_put {content content' : ByteArray} {modified modified' : Time} {name : String}
    (hplace : tree.nodeAt place = some .directory)
    (hold : tree.nodeAt (place ++ [name]) = some (.file content modified)) :
    SameShape tree (tree.put place name (.file content' modified')) := by
  intro q
  rw [FileTree.nodeAt_put hplace (by simp [hold]) rfl]
  split_ifs with hq
  · subst hq
    simp [hold, Node.isDirectory, FileTree.node]
  · rfl

end Os

end PluginWorkshop
