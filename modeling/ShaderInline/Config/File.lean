import ShaderInline.Config.Format
import ShaderInline.Files.Tree

/-! # Finding and loading configuration files -/

namespace ShaderInline

def ConfigFormat.ofPath? (path : Path) : Option ConfigFormat :=
  ((Path.extension? path).bind Utf8.text?).bind ofExtension?

namespace Config

/-- The names that are looked for in a directory, the first one first. -/
def fileNames : List Text :=
  [".splicerc.json", ".splicerc.toml", "splice.yaml", "splice.yml", "splice.json"].map
    String.toList

/-- The configuration file in a directory or in the nearest one above it. -/
def findFrom (t : FileTree) : (depth : Nat) → FileTree.Place → Option Path
  | 0, place => inDir place
  | depth + 1, place =>
    match inDir place with
    | some path => some path
    | none => if place = [] then none else findFrom t depth place.dropLast
where
  inDir (place : FileTree.Place) : Option Path :=
    (fileNames.map fun name => Path.join (FileTree.display place) (Utf8.encode name)).find? t.isFile

def find (t : FileTree) (start : Path) : Except Failure (Option Path) :=
  match t.locate start with
  | .error p => .error (.config ("Invalid path: ".toList ++ p.message))
  | .ok place => .ok (findFrom t place.length place)

/-- The start of the message for a file that is not in its format. -/
def parseMessage (path : Path) : Text := "Failed to parse '".toList ++ Utf8.lossyText path ++ ['\'']

def loadFile (t : FileTree) (path : Path) : Except Failure Config :=
  match ConfigFormat.ofPath? path with
  | none =>
    .error (.config ("Unsupported config file '".toList ++ Utf8.lossyText path ++
      "' (expected .json, .toml, .yaml or .yml)".toList))
  | some format =>
    match t.readText path with
    | .error p => .error (.io (Utf8.lossyText path) p.message)
    | .ok content =>
      match parse? format content with
      | none => .error (.config (parseMessage path))
      | some c =>
        let c := { c with baseDir := Path.parent? path }
        match c.validate with
        | .error f => .error f
        | .ok () => .ok c

/-- Load the given file, or the one found from a directory, or the standard. -/
def load (t : FileTree) (path : Option Path) (start : Option Path) : Except Failure Config :=
  match path with
  | some path =>
    if t.exists? path then loadFile t path
    else .error (.config ("Config file not found: ".toList ++ Utf8.lossyText path))
  | none =>
    match find t (start.getD [Path.dot]) with
    | .error f => .error f
    | .ok (some path) => loadFile t path
    | .ok none => .ok standard

end Config
end ShaderInline
