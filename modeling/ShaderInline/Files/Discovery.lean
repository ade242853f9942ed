import ShaderInline.Config.Basic
import ShaderInline.Files.Tree

/-! # Finding the files to build -/

namespace ShaderInline

structure Discovery where
  includes : List Glob
  excludes : List Glob
  deriving Repr

namespace Discovery

def compile : List Text → Except Failure (List Glob)
  | [] => .ok []
  | t :: ts =>
    match Glob.parse t with
    | .error p =>
      .error (.config ("Invalid glob pattern '".toList ++ t ++ "': ".toList ++ p.message))
    | .ok g =>
      match compile ts with
      | .error f => .error f
      | .ok gs => .ok (g :: gs)

def ofPatterns (p : FilePatterns) : Except Failure Discovery :=
  match compile p.includes with
  | .error f => .error f
  | .ok includes =>
    match compile p.excludes with
    | .error f => .error f
    | .ok excludes => .ok ⟨includes, excludes⟩

/-- Whether a path below a directory is to be built. -/
def isMatch (d : Discovery) (path : Path) : Bool :=
  let path := (Utf8.lossyText path).map fun c => if c == '\\' then '/' else c
  d.includes.any (Glob.isMatch · path) && !d.excludes.any (Glob.isMatch · path)

/-- Whether the directory of a file can be listed: its path must not be too long. -/
def isListed (root : Path) (names : FileTree.Place) : Bool :=
  (names.dropLast.foldl Path.join root).length ≤ FileTree.maxPath

/-- The files below a directory that are to be built, in order. -/
def discover (d : Discovery) (t : FileTree) (root : Path) : List Path :=
  match t.resolve false root with
  | .error _ => []
  | .ok place =>
    let found := (t.filesBelow place).filter fun e =>
      isListed root e.1 && d.isMatch (Text.join [Path.slash] e.1)
    (found.map fun e => e.1.foldl Path.join root).mergeSort Path.le

def addNew (paths : List Path) : List Path → List Path
  | [] => paths
  | p :: ps => addNew (if paths.any (Path.same p) then paths else paths ++ [p]) ps

/-- The files that a list of files and directories stands for, each once. -/
def expandFrom (d : Discovery) (t : FileTree) (found : List Path) :
    List Path → Except Failure (List Path)
  | [] => .ok found
  | input :: rest =>
    if t.isDir input then expandFrom d t (addNew found (d.discover t input)) rest
    else if t.isFile input then expandFrom d t (addNew found [input]) rest
    else .error (.io (Utf8.lossyText input) "no such file or directory".toList)

def expand (d : Discovery) (t : FileTree) (inputs : List Path) : Except Failure (List Path) :=
  d.expandFrom t [] inputs

end Discovery
end ShaderInline
