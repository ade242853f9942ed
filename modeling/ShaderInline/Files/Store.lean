import ShaderInline.Config.Basic
import ShaderInline.Files.Tree
import ShaderInline.Resource.Store

/-! # Resources in files -/

namespace ShaderInline

namespace Roots

def path? (r : Roots Path) (id : ResourceId) : Option Path :=
  (r.get? id.ns).map fun root => Path.descend root id.path

/-- The store of the files below the roots. A directory is no resource, and bytes that encode
no text are replaced. -/
def store (r : Roots Path) (t : FileTree) : Store := fun id =>
  match r.path? id with
  | none => .ok none
  | some path =>
    match t.stat path with
    | .ok (.file bytes) => .ok (some (Utf8.lossyText bytes))
    | .ok .directory => .ok none
    | .error .notFound => .ok none
    | .error p => .error (.io (Utf8.lossyText path) p.message)

end Roots

namespace Config

/-- A directory relative to the file of the settings. -/
def resolveDir (c : Config) (dir : Path) : Path :=
  match c.baseDir with
  | some base => if Path.isAbsolute dir then dir else Path.join base dir
  | none => dir

def dirs (c : Config) : Roots Path := c.roots.map Utf8.encode

def resolvedRoots (c : Config) : Roots Path := c.dirs.map c.resolveDir

end Config
end ShaderInline
