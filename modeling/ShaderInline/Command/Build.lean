import ShaderInline.Command.Args
import ShaderInline.Config.File
import ShaderInline.Files.Discovery
import ShaderInline.Files.Store
import ShaderInline.Pipeline
import ShaderInline.Schema.Glsl

/-! # Building files -/

namespace ShaderInline

/-- What a command has printed and the files as it leaves them. -/
structure Effects where
  files : FileTree
  stdout : Text

def defaultOutputDir : Path := Utf8.encode "splice-generated".toList

/-- What a build works with: its settings, the directories of the namespaces and the directory
from which the paths of resources count. -/
structure BuildSettings where
  config : Config
  dirs : Roots Path
  root : Path

namespace BuildArgs

/-- The directory from which a configuration file is looked for. -/
def searchStart (t : FileTree) : List Path → Path
  | [] => [Path.dot]
  | path :: _ =>
    if t.isDir path then path
    else
      match Path.parent? path with
      | some parent => if parent.isEmpty then [Path.dot] else parent
      | none => [Path.dot]

/-- The settings with those of the command line in force. -/
def override (a : BuildArgs) (c : Config) : Config :=
  { c with
    ns := a.ns.getD c.ns
    includeDir := a.includeDir.getD c.includeDir
    defines := a.defines.foldl (fun d e => d.insert e.1 e.2) c.defines
    lines := if a.noLines then { c.lines with enabled := false } else c.lines
    stripNonAscii := c.stripNonAscii && !a.keepUnicode }

/-- The directories of the namespaces with those of the command line in force, which are relative
to the working directory. -/
def overrideDirs (a : BuildArgs) (t : FileTree) (dirs : Roots Path) : Roots Path :=
  a.roots.foldl
    (fun r e => r.insert e.1 (Path.join (FileTree.display t.cwd) (Utf8.encode e.2))) dirs

def settings (a : BuildArgs) (t : FileTree) (config : Option Path) (paths : List Path) :
    Except Failure BuildSettings :=
  let start := searchStart t paths
  match Config.load t config (some start) with
  | .error f => .error f
  | .ok c =>
    let dirs := a.overrideDirs t c.dirs
    let c := a.override c
    let s : BuildSettings :=
      match dirs.get? c.ns with
      | some dir => ⟨c, dirs, t.canonicalOr (c.resolveDir dir)⟩
      | none => ⟨c, dirs.insert c.ns (t.canonicalOr start), t.canonicalOr start⟩
    match s.config.validate with
    | .error f => .error f
    | .ok () => .ok s

/-- The names by which a file is known: those inside the root directory, or the last one if it lies
elsewhere. -/
def resourceNames (root file : Path) : List Utf8.Bytes :=
  match Path.below? (Path.components root) (Path.components file) with
  | some below => Path.names below
  | none => (Path.fileName? file).toList

/-- The path of the resource in a file. Bytes of a name that encode no text are replaced. -/
def resourcePath (root file : Path) : Text :=
  Text.join ['/'] ((resourceNames root file).map Utf8.lossyText)

def buildFile (t : FileTree) (s : BuildSettings) (file : Path) : Except Failure Artifact :=
  match t.readText file with
  | .error p => .error (.io (Utf8.lossyText file) p.message)
  | .ok text =>
    let roots := s.dirs.map s.config.resolveDir
    let pipeline : Pipeline := ⟨.glsl, s.config, roots.store t, none⟩
    pipeline.build ⟨s.config.ns, resourcePath s.root (t.canonicalOr file)⟩ text

def outputPath (dir : Path) (a : Artifact) : Path := Path.descend dir a.id.path

def makeParent (t : FileTree) (path : Path) : Except Failure Unit × FileTree :=
  match Path.parent? path with
  | none => (.ok (), t)
  | some parent =>
    match FileTree.makeDirs (parent.length + 1) t parent with
    | (.ok (), t) => (.ok (), t)
    | (.error p, t) => (.error (.io (Utf8.lossyText parent) p.message), t)

def writeText (t : FileTree) (path : Path) (text : Text) : Except Failure Unit × FileTree :=
  match t.write path (Utf8.encode text) with
  | .error p => (.error (.io (Utf8.lossyText path) p.message), t)
  | .ok t => (.ok (), t)

def manifestSuffix : Text := ".map.json".toList

def writeArtifact (t : FileTree) (dir : Path) (a : Artifact) (emitMap : Bool) :
    Except Failure Unit × FileTree :=
  let path := outputPath dir a
  match makeParent t path with
  | (.error f, t) => (.error f, t)
  | (.ok (), t) =>
    match writeText t path a.text with
    | (.error f, t) => (.error f, t)
    | (.ok (), t) =>
      if emitMap then writeText t (path ++ Utf8.encode manifestSuffix) (a.manifest.pretty 0)
      else (.ok (), t)

/-- Emit what was built, in order. A shader that failed is passed over and counted; any other
failure ends the command. -/
def emit (a : BuildArgs) (many : Bool) :
    List (Except Failure Artifact) → Effects → Except Failure Nat × Effects
  | [], e => (.ok 0, e)
  | result :: rest, e =>
    match Failure.recover result with
    | .error f => (.error f, e)
    | .ok none =>
      match emit a many rest e with
      | (.ok failed, e) => (.ok (failed + 1), e)
      | (.error f, e) => (.error f, e)
    | .ok (some artifact) =>
      if a.stdout then
        let header := if many then "// ".toList ++ artifact.id.display ++ ['\n'] else []
        emit a many rest { e with stdout := e.stdout ++ header ++ artifact.text }
      else
        match writeArtifact e.files (a.output.getD defaultOutputDir) artifact a.emitMap with
        | (.error f, t) => (.error f, { e with files := t })
        | (.ok (), t) => emit a many rest { e with files := t }

/-- Put a result with the number of its file in front of those of later files. -/
def place {α : Type} (x : α × Nat) : List (α × Nat) → List (α × Nat)
  | [] => [x]
  | y :: ys => if x.2 ≤ y.2 then x :: y :: ys else y :: place x ys

/-- Results with the numbers of their files, in the order of the files. -/
def inOrder {α : Type} (results : List (α × Nat)) : List α := (results.foldr place []).map (·.1)

/-- Build files and say how many failed. Several files are built at once; the first argument tells
in which order they are finished. -/
def runWith (finish : List (Except Failure Artifact × Nat) → List (Except Failure Artifact × Nat))
    (a : BuildArgs) (t : FileTree) (config : Option Path) : Except Failure Nat × Effects :=
  let paths := if a.paths.isEmpty then [[Path.dot]] else a.paths
  match a.settings t config paths with
  | .error f => (.error f, ⟨t, []⟩)
  | .ok s =>
    match Discovery.ofPatterns s.config.files with
    | .error f => (.error f, ⟨t, []⟩)
    | .ok d =>
      match d.expand t paths with
      | .error f => (.error f, ⟨t, []⟩)
      | .ok files =>
        a.emit (1 < files.length) (inOrder (finish (files.map (buildFile t s)).zipIdx)) ⟨t, []⟩

/-- Build files one after another. -/
def run (a : BuildArgs) (t : FileTree) (config : Option Path) : Except Failure Nat × Effects :=
  a.runWith id t config

end BuildArgs
end ShaderInline
