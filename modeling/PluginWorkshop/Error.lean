import PluginWorkshop.Machine.OsError

/-!
# Errors

Every way an operation on a plugin project can fail, with its wording (`PluginError.message`),
the chain of causes below it (`PluginError.causes`) and the category that decides the exit code.
-/

namespace PluginWorkshop

/-- A path as the user or a manifest wrote it. -/
abbrev Path := String

/-- Why an operation on a plugin project failed. -/
inductive PluginError where
  /-- The project has no manifest. -/
  | manifestMissing (path : Path)
  /-- The manifest is no JSON object of the expected shape; `cause` is the reader's message. -/
  | manifestMalformed (path : Path) (reason : String) (cause : Option String)
  /-- The manifest does not require the base library. -/
  | dependencyMissing (package : String)
  /-- The manifest maps no namespaces. -/
  | autoloadMissing (path : Path)
  /-- No entry of the namespace map names a namespace and a directory. -/
  | namespaceMappingMissing (path : Path)
  /-- The main file of the plugin is not there. -/
  | mainFileMissing (path : Path)
  /-- The file to create is already there. -/
  | targetExists (path : Path)
  | alreadyPresent (package : String)
  | notPresent (package : String)
  /-- The bootstrap file has no place for the edit. -/
  | anchorNotFound (anchor : String) (path : Path)
  /-- The bootstrap file has several places for the edit, or one that takes no line. -/
  | anchorAmbiguous (anchor : String) (path : Path) (lines : List Nat) (reason : String)
  | readFailed (path : Path) (cause : OsError)
  | writeFailed (path : Path) (cause : OsError)
  | invalidArgument (message : String)
  | templateFailed (template message : String)
  | configInvalid (message : String)
  | cacheFailed (message : String)
  | processFailed (command message : String)
  deriving DecidableEq, Repr

/-- Coarse grouping of the errors. -/
inductive ErrorCategory where
  /-- The project is unusable. -/
  | validation
  /-- The change collides with what is there. -/
  | conflict
  /-- The bootstrap file cannot be patched. -/
  | structural
  /-- A file cannot be read or written. -/
  | io
  | other
  deriving DecidableEq, Repr

namespace PluginError

/-- Line numbers as a bracketed list. -/
def lineList (lines : List Nat) : String :=
  "[" ++ ", ".intercalate (lines.map toString) ++ "]"

def message : PluginError → String
  | manifestMissing path => "Manifest not found: " ++ path
  | manifestMalformed path reason _ => "Manifest is malformed (" ++ path ++ "): " ++ reason
  | dependencyMissing package => "Required dependency is not declared: " ++ package
  | autoloadMissing path => "Manifest has no autoload.psr-4 section: " ++ path
  | namespaceMappingMissing path =>
    "No usable namespace mapping in autoload.psr-4: " ++ path
  | mainFileMissing path => "Plugin main file not found: " ++ path
  | targetExists path => "Target file already exists: " ++ path
  | alreadyPresent package => "Package is already added: " ++ package
  | notPresent package => "Package is not added: " ++ package
  | anchorNotFound anchor path => "Could not locate " ++ anchor ++ " in " ++ path
  | anchorAmbiguous anchor path lines reason =>
    "Ambiguous " ++ anchor ++ " in " ++ path ++ " (lines " ++ lineList lines ++ "): " ++ reason
  | readFailed path _ => "Failed to read " ++ path
  | writeFailed path _ => "Failed to write " ++ path
  | invalidArgument message => "Invalid argument: " ++ message
  | templateFailed template message => "Template '" ++ template ++ "' failed: " ++ message
  | configInvalid message => "Configuration error: " ++ message
  | cacheFailed message => "Cache error: " ++ message
  | processFailed command message =>
    "External command `" ++ command ++ "` failed: " ++ message

/-- The messages of what lies below the error. -/
def causes : PluginError → List String
  | manifestMalformed _ _ cause => cause.toList
  | readFailed _ cause => [cause.message]
  | writeFailed _ cause => [cause.message]
  | _ => []

def category : PluginError → ErrorCategory
  | manifestMissing .. | manifestMalformed .. | dependencyMissing .. | autoloadMissing ..
  | namespaceMappingMissing .. | mainFileMissing .. => .validation
  | targetExists .. | alreadyPresent .. | notPresent .. => .conflict
  | anchorNotFound .. | anchorAmbiguous .. => .structural
  | readFailed .. | writeFailed .. => .io
  | invalidArgument .. | templateFailed .. | configInvalid .. | cacheFailed ..
  | processFailed .. => .other

end PluginError

/-- Exit code of the program; 0 stands for success. -/
structure ExitCode where
  code : Int
  deriving DecidableEq, Repr

namespace ExitCode

def success : ExitCode := ⟨0⟩

def isSuccess (e : ExitCode) : Bool := e.code == 0

/-- Each category has an exit code of its own. -/
def ofCategory : ErrorCategory → ExitCode
  | .validation => ⟨2⟩
  | .conflict => ⟨3⟩
  | .structural => ⟨4⟩
  | .io => ⟨5⟩
  | .other => ⟨1⟩

def ofError (e : PluginError) : ExitCode := ofCategory e.category

end ExitCode

end PluginWorkshop
