import ProcessFormula.Config.Environment
import ProcessFormula.Config.Json
import ProcessFormula.Config.Toml
import ProcessFormula.Config.Yaml

/-!
Where configuration comes from: one file that is named, or the standard layers, which are three
files and the environment. A file that is missing says nothing. A file that cannot be read spoils
the result whatever the other layers say, while an entry of the wrong type does so only if no higher
layer replaces it.
-/

namespace ProcessFormula.Config

/-- The files that can be read, as their bytes by path. -/
abbrev Files := String → Option (List UInt8)

inductive Format where
  | toml
  | yaml
  | json
  deriving DecidableEq

namespace Format

def ofExtension? : String → Option Format
  | "toml" => some .toml
  | "yaml" => some .yaml
  | "yml" => some .yaml
  | "json" => some .json
  | _ => none

def read? : Format → String → Option Tree
  | .toml, text => Toml.ofText? text
  | .yaml, text => Yaml.ofText? text
  | .json, text => Tree.ofJsonText? text

end Format

inductive LoadError where
  | noExtension
  | unsupportedFormat (extension : String)
  | unusable (path : Option String)
  deriving DecidableEq

def LoadError.message : LoadError → String
  | .noExtension => "Configuration error: Config file must have an extension"
  | .unsupportedFormat extension => s!"Unsupported config file format: {extension}"
  | .unusable none => "Configuration error: Failed to load configuration"
  | .unusable (some path) => s!"Configuration error: Failed to load configuration from {path}"

/-- The last name of a path, if that is the name of a file. -/
def fileName? (path : String) : Option String :=
  match ((path.splitOn "/").filter fun part => part != "" && part != ".").getLast? with
  | some ".." => none
  | name => name

/-- The part of a file's name behind its last dot. A dot at the start of the name does not count. -/
def extension? (path : String) : Option String := do
  let name ← fileName? path
  let reversed := name.toList.reverse
  let stem := (reversed.dropWhile (· != '.')).drop 1
  if stem.isEmpty then none else some (String.ofList (reversed.takeWhile (· != '.')).reverse)

def fileLayer? (format : Format) (files : Files) (path : String) : Option Tree :=
  match files path with
  | none => some .empty
  | some bytes => (String.fromUTF8? ⟨bytes.toArray⟩).bind format.read?

def ofLayers? (layers : List Tree) : Option RegistryConfig :=
  (layers.foldl Tree.merge .empty).registryConfig?

def standardFiles : List (Format × String) :=
  [(.toml, "config/formula.toml"), (.yaml, "config/formula.yaml"), (.json, "config/formula.json")]

def loadFile (files : Files) (path : String) : Except LoadError RegistryConfig := do
  let some extension := extension? path | throw .noExtension
  let some format := Format.ofExtension? extension | throw (.unsupportedFormat extension)
  match (fileLayer? format files path).bind fun layer => ofLayers? [layer] with
  | some config => return config
  | none => throw (.unusable (some path))

/-- The configuration of the standard layers, the environment being the highest. -/
def loadStandard (files : Files) (environment : List (String × String)) :
    Except LoadError RegistryConfig :=
  let fileLayers := standardFiles.mapM fun file => fileLayer? file.1 files file.2
  match fileLayers.bind fun layers => ofLayers? (layers ++ [Environment.tree environment]) with
  | some config => .ok config
  | none => .error (.unusable none)

end ProcessFormula.Config
