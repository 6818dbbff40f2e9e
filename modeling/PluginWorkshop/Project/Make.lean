import PluginWorkshop.ClassSpec.Placement
import PluginWorkshop.Project.Basic
import PluginWorkshop.Project.Patch

/-!
# Making a class

A class is made in a project by creating its file and wiring it into the main file. Everything that
can be refused is refused before anything is written, and if the wiring fails the class file and the
directories made for it are taken away again.
-/

namespace PluginWorkshop

/-- What making a class has done. -/
structure MakeReport where
  kind : ClassKind
  /-- The qualified name of the class. -/
  className : String
  file : Path
  bootstrap : Path
  /-- The property that holds the object. -/
  property : String
  changes : List Php.LineChange
  deriving DecidableEq, Repr

namespace Project

/-- The class in its place, of which there is no file yet. -/
def placeNew (project : Project) (spec : ClassSpec) : Action PlacedClass := do
  let placed := spec.place project.mapping
  if Os.fileExists (← get) placed.file then
    throw (.targetExists placed.file)
  return placed

/-- Makes the requested class in the project at a root. -/
def make (root : Path) (request : ClassRequest) : Action MakeReport := do
  let project ← resolve root
  let spec ← MonadExcept.ofExcept (ClassSpec.ofRequest request)
  let placed ← project.placeNew spec
  match placed.instantiation project.textDomain with
  | none =>
    throw (.invalidArgument (spec.kind.label ++ " classes cannot be generated with make"))
  | some statement =>
    let outcome ← Files.withNewFile placed.file placed.content <|
      Php.applyEdit project.mainFile (.wireClass placed.propertyDeclaration statement)
    return {
      kind := spec.kind
      className := placed.qualifiedName
      file := placed.file
      bootstrap := project.mainFile
      property := spec.property
      changes := outcome.changes }

end Project

end PluginWorkshop
