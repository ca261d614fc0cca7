import Transclusion.Config.Load
import Transclusion.SourceTree

/-!
# Projects

A project is a directory with a configuration and the source tree that the configuration points to.
-/

namespace Transclusion

/-- What files the configuration leaves out. -/
def Config.loadOptions (config : Config) : LoadOptions :=
  ⟨config.exclude, config.disableGitignore⟩

/-- The project at a directory. -/
structure Project where
  root : String
  config : Config
  tree : SourceTree

namespace Project

/-- The directory with the documents. -/
def sourceDirectory (project : Project) : String :=
  project.config.sourceDirectory project.root

/-- The directory that is written. -/
def destinationDirectory (project : Project) : String :=
  project.config.destinationDirectory project.root

def stageOptions (project : Project) : StageOptions :=
  project.config.stageOptions project.root

/-- Reads the configuration at `root` and the files it points to. -/
def load (files : FileTree) (root : String) : Except Error Project := do
  let config ← Config.load files root
  let tree ← SourceTree.load files (config.sourceDirectory root) config.loadOptions
  return ⟨root, config, tree⟩

end Project

end Transclusion
