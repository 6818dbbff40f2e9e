import PluginWorkshop.Machine.Files
import PluginWorkshop.Php.Bootstrap

/-!
# Patching a bootstrap file

An edit is planned on the text of the file, and the file is replaced only if the edit changes
something.
-/

namespace PluginWorkshop.Php

/-- Carries out an edit on the file at a path. -/
def applyEdit (path : Path) (edit : BootstrapEdit) : Action PatchOutcome := do
  let text ← Files.readText path
  let outcome ← MonadExcept.ofExcept (plan path text edit)
  if !outcome.isUnchanged then
    Files.replaceFile path outcome.content
  return outcome

end PluginWorkshop.Php
