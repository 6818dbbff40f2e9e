import PluginWorkshop.ClassSpec.Basic
import PluginWorkshop.Manifest.Mapping
import PluginWorkshop.Php.Quoted

/-!
# Placing a class

Under a namespace mapping a class has a file, a namespace and a qualified name, and the bootstrap
file gets a property and a statement for it.
-/

namespace PluginWorkshop

/-- A class with its place in a project. -/
structure PlacedClass where
  spec : ClassSpec
  /-- The directory of the class file. -/
  directory : Path
  file : Path
  /-- The namespace that the class file declares. -/
  nameSpace : String
  /-- The class name with its namespace. -/
  qualifiedName : String
  deriving DecidableEq, Repr

namespace ClassSpec

/-- The class in the place that the mapping gives it. -/
def place (spec : ClassSpec) (mapping : NamespaceMapping) : PlacedClass :=
  let directory := spec.folders.foldl Path.join mapping.sourceDir
  let nameSpace := "\\".intercalate (mapping.rootNamespace :: spec.folders)
  { spec, directory, nameSpace
    file := Path.join directory (spec.className ++ ".php")
    qualifiedName := nameSpace ++ "\\" ++ spec.className }

end ClassSpec

namespace PlacedClass

open Php.Quoted

/-- The declaration of the property that holds the object. -/
def propertyDeclaration (placed : PlacedClass) : String := "public $" ++ placed.spec.property ++ ";"

/-- The slug and the name, which can be translated, as arguments. -/
def registration (placed : PlacedClass) (textDomain : String) : String :=
  quote (placed.spec.slug.getD "") ++ ", __(" ++ quote (placed.spec.singularName.getD "") ++ ", " ++
    quote textDomain ++ ")"

/-- The statement that puts a new object into the property, for a kind that is wired. -/
def instantiation (placed : PlacedClass) (textDomain : String) : Option String :=
  let target := "$this->" ++ placed.spec.property ++ " = new \\" ++ placed.qualifiedName
  match placed.spec.kind with
  | .model => some (target ++ "($this->plugin);")
  | .postType =>
    some (target ++ "(" ++ placed.registration textDomain ++ ", array(), $this->plugin);")
  | .taxonomy =>
    some (target ++ "(" ++ placed.registration textDomain ++
      ", array('post'), array(), $this->plugin);")
  | .integrationStub => none

/-- The variables of the class file's template. -/
def templateVars (placed : PlacedClass) : TemplateVars :=
  TemplateVars.empty
    |>.set "namespace" placed.nameSpace
    |>.set "class" placed.spec.className
    |>.set "variable" placed.spec.property
    |>.set "slug" (placed.spec.slug.getD "")
    |>.set "name" (placed.spec.singularName.getD "")

/-- The text of the class file. -/
def content (placed : PlacedClass) : String := placed.spec.kind.template.render placed.templateVars

end PlacedClass

end PluginWorkshop
