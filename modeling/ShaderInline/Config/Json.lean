import ShaderInline.Config.Basic
import ShaderInline.Json.Printer
import ShaderInline.Json.Reader
import ShaderInline.Json.Record

/-! # Configuration in JSON -/

namespace ShaderInline.Config

def fieldNames : List Text :=
  ["namespace", "includeDir", "roots", "lineDirectives", "stripNonAscii", "maxImportDepth",
    "defines", "files"].map String.toList

def lineFieldNames : List Text := ["enabled", "marker"].map String.toList

def fileFieldNames : List Text := ["include", "exclude"].map String.toList

def optionalText : Option Text → Json
  | some t => .str t
  | none => .null

def toJson (c : Config) : Json :=
  .obj [
    ("namespace".toList, .str c.ns),
    ("includeDir".toList, .str c.includeDir),
    ("roots".toList, .obj (c.roots.entries.map fun e => (e.1, .str e.2))),
    ("lineDirectives".toList,
      .obj [("enabled".toList, .bool c.lines.enabled), ("marker".toList, .str c.lines.marker)]),
    ("stripNonAscii".toList, .bool c.stripNonAscii),
    ("maxImportDepth".toList, .nat c.maxImportDepth),
    ("defines".toList, .obj (c.defines.entries.map fun e => (e.1, optionalText e.2))),
    ("files".toList,
      .obj [("include".toList, .arr (c.files.includes.map .str)),
        ("exclude".toList, .arr (c.files.excludes.map .str))])]

def field {α : Type} (standard : α) (read : Json → Option α) : Option Json → Option α
  | none => some standard
  | some j => read j

def texts? : Json → Option (List Text)
  | .arr items => items.mapM Json.text?
  | _ => none

def defineValue? : Json → Option (Option Text)
  | .null => some none
  | .str t => some (some t)
  | _ => none

def rootOf? (m : Text × Json) : Option (Text × Text) := m.2.text?.map fun dir => (m.1, dir)

/-- The name under which a date is the only member of a table. -/
def dateKey : Text := "$__toml_private_datetime".toList

def rootsOf? : Json → Option (Roots Text)
  | .obj members => (members.mapM rootOf?).map Roots.ofList
  | .date t => some (Roots.ofList [(dateKey, t)])
  | _ => none

def defineOf? (m : Text × Json) : Option (Text × Option Text) :=
  (defineValue? m.2).map fun value => (m.1, value)

/-- The defines in a table. A date is none of them, because its text is not optional. -/
def definesOf? : Json → Option Defines
  | .obj members => (members.mapM defineOf?).map Defines.ofList
  | _ => none

def linesOf? (openEnded : Bool) (j : Json) : Option LineSettings :=
  match j.record? openEnded lineFieldNames with
  | some [enabled, marker] => do
    return ⟨← field LineSettings.standard.enabled Json.bool? enabled,
      ← field LineSettings.standard.marker Json.text? marker⟩
  | _ => none

def filesOf? (openEnded : Bool) (j : Json) : Option FilePatterns :=
  match j.record? openEnded fileFieldNames with
  | some [includes, excludes] => do
    return ⟨← field FilePatterns.standard.includes texts? includes,
      ← field FilePatterns.standard.excludes texts? excludes⟩
  | _ => none

/-- The settings in a value. Missing ones have their standard, unknown ones are ignored. The
first argument tells whether an array for a record may be longer than it. -/
def ofJson? (openEnded : Bool) (j : Json) : Option Config :=
  match j.record? openEnded fieldNames with
  | some [ns, includeDir, roots, lines, strip, depth, defines, files] => do
    return {
      ns := ← field standard.ns Json.text? ns
      includeDir := ← field standard.includeDir Json.text? includeDir
      roots := ← field standard.roots rootsOf? roots
      lines := ← field standard.lines (linesOf? openEnded) lines
      stripNonAscii := ← field standard.stripNonAscii Json.bool? strip
      maxImportDepth := ← field standard.maxImportDepth (Json.natBelow? Json.limit64) depth
      defines := ← field standard.defines definesOf? defines
      files := ← field standard.files (filesOf? openEnded) files
      baseDir := none }
  | _ => none

def parseJson? (t : Text) : Option Config := (Json.parse? t).bind (ofJson? false)

def renderJson (c : Config) : Text := c.toJson.pretty 0

end ShaderInline.Config
