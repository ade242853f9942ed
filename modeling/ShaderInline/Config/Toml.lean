import ShaderInline.Config.Json
import ShaderInline.Toml.Reader

/-! # Configuration in TOML -/

namespace ShaderInline.Config

def parseToml? (t : Text) : Option Config := (Toml.parse? t).bind (ofJson? true)

def tomlBool (b : Bool) : Text := if b then "true".toList else "false".toList

def tomlLine (key value : Text) : Text := key ++ " = ".toList ++ value ++ ['\n']

def tomlHeader (name : String) : Text := "\n[".toList ++ name.toList ++ "]\n".toList

/-- The written settings. Plain values come first; defines without a value are left out. -/
def renderToml (c : Config) : Text :=
  tomlLine "namespace".toList (Toml.string c.ns) ++
  tomlLine "includeDir".toList (Toml.string c.includeDir) ++
  tomlLine "stripNonAscii".toList (tomlBool c.stripNonAscii) ++
  tomlLine "maxImportDepth".toList (Text.decimal c.maxImportDepth) ++
  tomlHeader "roots" ++
  c.roots.entries.flatMap (fun e => tomlLine (Toml.key e.1) (Toml.string e.2)) ++
  tomlHeader "lineDirectives" ++
  tomlLine "enabled".toList (tomlBool c.lines.enabled) ++
  tomlLine "marker".toList (Toml.string c.lines.marker) ++
  tomlHeader "defines" ++
  c.defines.entries.flatMap (fun e =>
    match e.2 with
    | some value => tomlLine (Toml.key e.1) (Toml.string value)
    | none => []) ++
  tomlHeader "files" ++
  tomlLine "include".toList (Toml.strings c.files.includes) ++
  tomlLine "exclude".toList (Toml.strings c.files.excludes)

end ShaderInline.Config
