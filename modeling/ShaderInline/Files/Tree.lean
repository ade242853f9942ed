import ShaderInline.Failure
import ShaderInline.Files.Path
import ShaderInline.Files.Utf8

/-! # A tree of files

Files and directories by the names that lead to them from the root, and the
operations of a file system on them with their errors.
-/

namespace ShaderInline

inductive FileProblem where
  | notFound
  | notDirectory
  | isDirectory
  | exists
  | nameTooLong
  | nulByte
  | notText
  deriving DecidableEq, Repr

def FileProblem.message : FileProblem → Text
  | notFound => "No such file or directory (os error 2)".toList
  | notDirectory => "Not a directory (os error 20)".toList
  | isDirectory => "Is a directory (os error 21)".toList
  | .exists => "File exists (os error 17)".toList
  | nameTooLong => "File name too long (os error 36)".toList
  | nulByte => "file name contained an unexpected NUL byte".toList
  | notText => "stream did not contain valid UTF-8".toList

inductive FileNode where
  | file (bytes : Utf8.Bytes)
  | directory
  deriving DecidableEq, Repr

/-- A file system without symbolic or hard links: each file and each directory stands at one
place only. -/
structure FileTree where
  /-- The working directory. -/
  cwd : List Utf8.Bytes
  /-- Files and directories by their names from the root; the root itself is not listed. -/
  entries : List (List Utf8.Bytes × FileNode)
  deriving Repr

namespace FileTree

abbrev Place := List Utf8.Bytes

def at? (t : FileTree) (place : Place) : Option FileNode :=
  if place = [] then some .directory else (t.entries.find? fun e => e.1 == place).map (·.2)

/-- Put a file or a directory at a place, in the stead of what was there. -/
def put (t : FileTree) (place : Place) (node : FileNode) : FileTree :=
  { t with entries := t.entries.filter (fun e => e.1 != place) ++ [(place, node)] }

/-- Make a directory and those it lies in, as far as they are missing. -/
def ensure (t : FileTree) (place : Place) : FileTree :=
  (List.range place.length).foldl (fun t n =>
    let place := place.take (n + 1)
    if (t.at? place).isSome then t else t.put place .directory) t

def remove (t : FileTree) (place : Place) : FileTree :=
  { t with entries := t.entries.filter fun e => e.1.take place.length != place }

/-- An empty tree with a working directory. -/
def start (cwd : Place) : FileTree := ensure ⟨cwd, []⟩ cwd

/-- The place that the names in a path lead to. -/
def placeOf (t : FileTree) (path : Path) : Place :=
  (if Path.isAbsolute path then [] else t.cwd) ++ Path.names (Path.components path)

/-- Put a file or a directory at a path, and make the directories that it lies in. -/
def add (t : FileTree) (path : Path) : FileNode → FileTree
  | .directory => t.ensure (t.placeOf path)
  | .file bytes => (t.ensure (t.placeOf path).dropLast).put (t.placeOf path) (.file bytes)

/-! ### Walking along a path -/

/-- The longest name in bytes. -/
def maxName : Nat := 255

/-- The longest path in bytes. -/
def maxPath : Nat := 4095

def display (place : Place) : Path := Path.slash :: Text.join [Path.slash] place

/-- Whether the absolute path of a place can be used as a path. -/
def isShort (place : Place) : Bool := (display place).length ≤ maxPath

/-- Go on from a directory along the segments of a path. Each place on the way has to be
admitted. -/
def walk (t : FileTree) (admits : Place → Bool) (place : Place) :
    List Utf8.Bytes → Except FileProblem Place
  | [] => .ok place
  | segment :: rest =>
    match t.at? place with
    | none => .error .notFound
    | some (.file _) => .error .notDirectory
    | some .directory =>
      if segment = [] || segment = [Path.dot] then walk t admits place rest
      else if segment = [Path.dot, Path.dot] then walk t admits place.dropLast rest
      else if maxName < segment.length || !admits (place ++ [segment]) then
        .error .nameTooLong
      else walk t admits (place ++ [segment]) rest

/-- The place that a path leads to over places that are admitted. Something has to be there unless
it is new. -/
def follow (t : FileTree) (admits : Place → Bool) (new : Bool) (path : Path) :
    Except FileProblem Place :=
  if path.contains 0 then .error .nulByte
  else if path.isEmpty then .error .notFound
  else
    match t.walk admits (if Path.isAbsolute path then [] else t.cwd)
        (Text.split Path.slash path) with
    | .error p => .error p
    | .ok place =>
      match t.at? place with
      | some _ => .ok place
      | none => if new then .ok place else .error .notFound

/-- The place that a path leads to, if it is used as a whole: it must not be too long. -/
def resolve (t : FileTree) (new : Bool) (path : Path) : Except FileProblem Place :=
  if maxPath < path.length && !path.contains 0 then .error .nameTooLong
  else t.follow (fun _ => true) new path

/-- The place that a path leads to, if it is followed name by name: it may have any length, but
the absolute path of no place on the way may be too long. -/
def locate (t : FileTree) (path : Path) : Except FileProblem Place := t.follow isShort false path

def stat (t : FileTree) (path : Path) : Except FileProblem FileNode :=
  match t.resolve false path with
  | .error p => .error p
  | .ok place =>
    match t.at? place with
    | some node => .ok node
    | none => .error .notFound

def isDir (t : FileTree) (path : Path) : Bool :=
  match t.stat path with
  | .ok .directory => true
  | _ => false

def isFile (t : FileTree) (path : Path) : Bool :=
  match t.stat path with
  | .ok (.file _) => true
  | _ => false

def exists? (t : FileTree) (path : Path) : Bool :=
  match t.stat path with
  | .ok _ => true
  | .error _ => false

def read (t : FileTree) (path : Path) : Except FileProblem Utf8.Bytes :=
  match t.stat path with
  | .ok (.file bytes) => .ok bytes
  | .ok .directory => .error .isDirectory
  | .error p => .error p

/-- The content of a file that holds text. -/
def readText (t : FileTree) (path : Path) : Except FileProblem Text :=
  match t.read path with
  | .error p => .error p
  | .ok bytes =>
    match Utf8.text? bytes with
    | some text => .ok text
    | none => .error .notText

/-- Write a file into a directory that exists. -/
def write (t : FileTree) (path : Path) (bytes : Utf8.Bytes) : Except FileProblem FileTree :=
  match t.resolve true path with
  | .error p => .error p
  | .ok place =>
    match t.at? place with
    | some .directory => .error .isDirectory
    | some (.file _) => .ok (t.put place (.file bytes))
    | none =>
      if path.getLast? = some Path.slash then .error .isDirectory
      else .ok (t.put place (.file bytes))

def makeDir (t : FileTree) (path : Path) : Except FileProblem FileTree :=
  match t.resolve true path with
  | .error p => .error p
  | .ok place => if (t.at? place).isSome then .error .exists else .ok (t.put place .directory)

/-- Make a directory and those it lies in. The first argument bounds their number. What was
made stays even if the rest fails. -/
def makeDirs : Nat → FileTree → Path → Except FileProblem Unit × FileTree
  | 0, t, _ => (.error .notFound, t)
  | fuel + 1, t, path =>
    if path.isEmpty then (.ok (), t)
    else
      match t.makeDir path with
      | .ok t => (.ok (), t)
      | .error .notFound =>
        match Path.parent? path with
        | none => (.error .notFound, t)
        | some parent =>
          match makeDirs fuel t parent with
          | (.error p, t) => (.error p, t)
          | (.ok (), t) =>
            match t.makeDir path with
            | .ok t => (.ok (), t)
            | .error p => if t.isDir path then (.ok (), t) else (.error p, t)
      | .error p => if t.isDir path then (.ok (), t) else (.error p, t)

def canonical (t : FileTree) (path : Path) : Except FileProblem Path :=
  match t.locate path with
  | .ok place => .ok (display place)
  | .error p => .error p

/-- The absolute path that a path leads to, or the path itself if it leads nowhere. -/
def canonicalOr (t : FileTree) (path : Path) : Path :=
  match t.canonical path with
  | .ok path => path
  | .error _ => path

/-- The files below a place, by their names from there. -/
def filesBelow (t : FileTree) (place : Place) : List (Place × Utf8.Bytes) :=
  t.entries.filterMap fun
    | (p, .file bytes) =>
      if p.take place.length = place then some (p.drop place.length, bytes) else none
    | (_, .directory) => none

end FileTree
end ShaderInline
