import ShaderInline.Config.Basic
import ShaderInline.Yaml.Node
import ShaderInline.Yaml.Printer

/-! # Configuration in YAML -/

namespace ShaderInline.Config

namespace FromYaml

variable (root : Yaml)

/-- Any scalar is accepted as a string. -/
def text? (y : Yaml) : Option Text :=
  match Yaml.target root y with
  | .scalar _ _ t => some t
  | _ => none

/-- The text of a scalar that may be read as a value of a kind: a plain one, or one on lines of
its own that has the tag of the kind. -/
def word? (kind : String) (y : Yaml) : Option Text :=
  match Yaml.target root y with
  | .scalar .plain _ t => some t
  | .scalar .literal tag t =>
    if tag == some ("tag:yaml.org,2002:".toList ++ kind.toList) then some t else none
  | _ => none

def bool? (y : Yaml) : Option Bool := (word? root "bool" y).bind Yaml.boolWord?

def depth? (y : Yaml) : Option Nat :=
  ((word? root "int" y).bind Yaml.nat?).bind fun n => if n < Json.limit64 then some n else none

/-- A word for null or an empty scalar is no value. What has the tag of null has to be a word
for it, and what has another tag is a string. -/
def defineValue? (y : Yaml) : Option (Option Text) :=
  match Yaml.target root y with
  | .scalar .plain none t => some (if t.isEmpty || Yaml.isNullWord t then none else some t)
  | .scalar .plain (some tag) t =>
    if tag != "tag:yaml.org,2002:null".toList then some (some t)
    else if Yaml.isNullWord t then some none
    else none
  | .scalar _ _ t => some (some t)
  | _ => none

def texts? (y : Yaml) : Option (List Text) :=
  match Yaml.target root y with
  | .scalar .plain _ [] => some []
  | .seq ys => ys.mapM (text? root)
  | _ => none

def members? (y : Yaml) : Option (List (Text × Yaml)) :=
  match Yaml.target root y with
  | .scalar .plain _ [] => some []
  | .map ms => ms.mapM fun m => (text? root m.1).map fun k => (k, m.2)
  | _ => none

/-- The values of the named fields, none of which may occur twice. -/
def record? (names : List Text) (y : Yaml) : Option (List (Option Yaml)) :=
  (members? root y).bind fun ms =>
    if names.any fun name => 1 < (ms.filter fun m => m.1 == name).length then none
    else some (names.map fun name => (ms.find? fun m => m.1 == name).map (·.2))

def field {α : Type} (standard : α) (read : Yaml → Option α) : Option Yaml → Option α
  | none => some standard
  | some y => read y

def roots? (y : Yaml) : Option (Roots Text) :=
  (members? root y).bind fun ms =>
    (ms.mapM fun m => (text? root m.2).map fun dir => (m.1, dir)).map Roots.ofList

def defines? (y : Yaml) : Option Defines :=
  (members? root y).bind fun ms =>
    (ms.mapM fun m => (defineValue? root m.2).map fun value => (m.1, value)).map Defines.ofList

def lines? (y : Yaml) : Option LineSettings :=
  match record? root (["enabled", "marker"].map String.toList) y with
  | some [enabled, marker] => do
    return ⟨← field LineSettings.standard.enabled (bool? root) enabled,
      ← field LineSettings.standard.marker (text? root) marker⟩
  | _ => none

def files? (y : Yaml) : Option FilePatterns :=
  match record? root (["include", "exclude"].map String.toList) y with
  | some [includes, excludes] => do
    return ⟨← field FilePatterns.standard.includes (texts? root) includes,
      ← field FilePatterns.standard.excludes (texts? root) excludes⟩
  | _ => none

def config? (y : Yaml) : Option Config :=
  match record? root (["namespace", "includeDir", "roots", "lineDirectives", "stripNonAscii",
      "maxImportDepth", "defines", "files"].map String.toList) y with
  | some [ns, includeDir, roots, lines, strip, depth, defines, files] => do
    return {
      ns := ← field standard.ns (text? root) ns
      includeDir := ← field standard.includeDir (text? root) includeDir
      roots := ← field standard.roots (roots? root) roots
      lines := ← field standard.lines (lines? root) lines
      stripNonAscii := ← field standard.stripNonAscii (bool? root) strip
      maxImportDepth := ← field standard.maxImportDepth (depth? root) depth
      defines := ← field standard.defines (defines? root) defines
      files := ← field standard.files (files? root) files
      baseDir := none }
  | _ => none

end FromYaml

def parseYaml? (t : Text) : Option Config :=
  (Yaml.parse? t).bind fun root => FromYaml.config? root root

namespace ToYaml

def bool (b : Bool) : Text := if b then "true".toList else "false".toList

def line (indent : Nat) (key : String) (value : Text) : Text :=
  Yaml.margin indent ++ key.toList ++ ": ".toList ++ Yaml.endLine value

/-- A setting whose value stands on the lines below, or beside its key if it is empty. -/
def nested (indent : Nat) (key : String) (empty : String) (lines : List Text) : Text :=
  if lines.isEmpty then line indent key empty.toList
  else Yaml.margin indent ++ key.toList ++ ":\n".toList ++ lines.flatten

def optional : Option Text → Text
  | some t => Yaml.string 4 t
  | none => "null".toList

def items (ts : List Text) : List Text :=
  ts.map fun t => "  - ".toList ++ Yaml.endLine (Yaml.string 4 t)

end ToYaml

open ToYaml in
/-- The written settings, in the order of their declaration. -/
def renderYaml (c : Config) : Text :=
  line 0 "namespace" (Yaml.string 2 c.ns) ++
  line 0 "includeDir" (Yaml.string 2 c.includeDir) ++
  nested 0 "roots" "\x7b\x7d" (c.roots.entries.map fun e =>
    Yaml.member 2 e.1 (Yaml.string 4 e.2)) ++
  nested 0 "lineDirectives" "\x7b\x7d"
    [line 2 "enabled" (bool c.lines.enabled),
      line 2 "marker" (Yaml.string 4 c.lines.marker)] ++
  line 0 "stripNonAscii" (bool c.stripNonAscii) ++
  line 0 "maxImportDepth" (Text.decimal c.maxImportDepth) ++
  nested 0 "defines" "\x7b\x7d" (c.defines.entries.map fun e =>
    Yaml.member 2 e.1 (optional e.2)) ++
  nested 0 "files" "\x7b\x7d"
    [nested 2 "include" "[]" (items c.files.includes),
      nested 2 "exclude" "[]" (items c.files.excludes)]

end ShaderInline.Config
