import ShaderInline.Config.Format
import ShaderInline.Files.Path

/-! # The command line

Options may stand anywhere, in a long or a short form, with their value beside
them or in the next argument. After a double dash everything is a path. Paths
may hold any bytes, all other values have to be texts.
-/

namespace ShaderInline

structure BuildArgs where
  paths : List Path := []
  output : Option Path := none
  defines : List (Text × Option Text) := []
  ns : Option Text := none
  includeDir : Option Text := none
  roots : List (Text × Text) := []
  noLines : Bool := false
  keepUnicode : Bool := false
  emitMap : Bool := false
  stdout : Bool := false
  jobs : Option Nat := none
  deriving Repr

inductive Command where
  | build (args : BuildArgs)
  | configInit (format : ConfigFormat) (force : Bool)
  | configShow (format : ConfigFormat)
  | version
  deriving Repr

/-- A command and the configuration file named on the command line. -/
structure Invocation where
  command : Command
  config : Option Path
  deriving Repr

inductive Refusal where
  /-- The arguments are not understood. -/
  | usage
  /-- Only the version was asked for. -/
  | showVersion
  /-- Only help was asked for. -/
  | showHelp
  deriving DecidableEq, Repr

namespace Args

inductive Arity where
  | flag
  | value
  deriving DecidableEq, Repr

/-- The options of a level of the command line. -/
inductive Switch where
  | config
  | verbose
  | help
  | version
  | output
  | define
  | ns
  | includeDir
  | root
  | noLines
  | keepUnicode
  | emitMap
  | stdout
  | jobs
  | format
  | force
  | detailed
  deriving DecidableEq, Repr

def Switch.arity : Switch → Arity
  | config | output | define | ns | includeDir | root | jobs | format => .value
  | _ => .flag

def Switch.isRepeatable : Switch → Bool
  | verbose | define | root => true
  | _ => false

/-- The part of the command line that options belong to. -/
inductive Level where
  | top
  | build
  | config
  | configInit
  | configShow
  | version
  deriving DecidableEq, Repr

def Level.options : Level → List (String × Option Char × Switch)
  | top =>
    [("config", some 'c', .config), ("verbose", some 'v', .verbose), ("help", some 'h', .help),
      ("version", some 'V', .version)]
  | build => shared ++
    [("output", some 'o', .output), ("define", some 'D', .define), ("namespace", none, .ns),
      ("include-dir", none, .includeDir), ("root", none, .root),
      ("no-line-directives", none, .noLines), ("keep-unicode", none, .keepUnicode),
      ("emit-map", none, .emitMap), ("stdout", none, .stdout), ("jobs", some 'j', .jobs)]
  | config => shared
  | configInit => shared ++ [("format", none, .format), ("force", none, .force)]
  | configShow => shared ++ [("format", none, .format)]
  | version => shared ++ [("detailed", none, .detailed)]
where
  shared :=
    [("config", some 'c', .config), ("verbose", some 'v', .verbose), ("help", some 'h', .help)]

def Level.long? (l : Level) (name : Text) : Option Switch :=
  (l.options.find? fun o => o.1.toList == name).map (·.2.2)

def Level.short? (l : Level) (b : UInt8) : Option Switch :=
  (l.options.find? fun o => o.2.1 == some (Char.ofNat b.toNat)).map (·.2.2)

def Level.sub? : Level → Text → Option Level
  | top, t =>
    if t = "build".toList then some .build
    else if t = "config".toList then some .config
    else if t = "version".toList || t = "ver".toList then some .version
    else none
  | config, t =>
    if t = "init".toList then some .configInit
    else if t = "show".toList then some .configShow
    else none
  | _, _ => none

/-! ### Values -/

def formatOf (t : Text) : Except Refusal ConfigFormat :=
  if t = "json".toList then .ok .json
  else if t = "toml".toList then .ok .toml
  else if t = "yaml".toList then .ok .yaml
  else .error .usage

/-- A define in the form `NAME` or `NAME=VALUE`. -/
def defineOf (t : Text) : Except Refusal (Text × Option Text) :=
  match Defines.parse t with
  | .ok d => .ok d
  | .error _ => .error .usage

/-- A root in the form `NAMESPACE=DIRECTORY`. -/
def rootOf (t : Text) : Except Refusal (Text × Text) :=
  match Text.breakAt? '=' t with
  | some (ns, dir) => if ns.isEmpty || dir.isEmpty then .error .usage else .ok (ns, dir)
  | none => .error .usage

/-- A number of 64 bits, possibly with a plus sign. -/
def numberOf (t : Text) : Except Refusal Nat :=
  let ds := match t with
    | '+' :: ds => ds
    | ds => ds
  if ds.isEmpty || !ds.all Char.isDigit || Text.digitsValue ds ≥ Json.limit64 then .error .usage
  else .ok (Text.digitsValue ds)

def Switch.admitsText (o : Switch) (value : Text) : Bool :=
  match o with
  | define => (defineOf value).isOk
  | root => (rootOf value).isOk
  | jobs => (numberOf value).isOk
  | format => (formatOf value).isOk
  | _ => true

/-- Whether an option takes a value. A path must not be empty. -/
def Switch.admits (o : Switch) (value : Utf8.Bytes) : Bool :=
  match o with
  | config | output => !value.isEmpty
  | _ =>
    match Utf8.text? value with
    | some text => o.admitsText text
    | none => false

/-! ### Reading -/

/-- What has been read: the level, the options with their values and where they were given, and
the paths. -/
structure Seen where
  level : Level
  options : List (Level × Switch × Utf8.Bytes)
  paths : List Path
  deriving Repr

namespace Seen

/-- Note an option. Its value is checked at once, and most may be given only once on a level. -/
def add (s : Seen) (o : Switch) (value : Utf8.Bytes) : Except Refusal Seen :=
  if o = .help then .error .showHelp
  else if o = .version then .error .showVersion
  else if !o.admits value then .error .usage
  else if !o.isRepeatable && s.options.any fun e => e.1 = s.level && e.2.1 = o then .error .usage
  else .ok { s with options := s.options ++ [(s.level, o, value)] }

def addPath (s : Seen) (path : Path) : Except Refusal Seen :=
  if s.level = .build && !path.isEmpty then .ok { s with paths := s.paths ++ [path] }
  else .error .usage

/-- Note a word that is no option: the name of a level or a path. -/
def addWord (s : Seen) (word : Utf8.Bytes) : Except Refusal Seen :=
  match (Utf8.text? word).bind s.level.sub? with
  | some level => .ok { s with level := level }
  | none => s.addPath word

end Seen

/-- Whether a word may be taken as the value of the option before it. -/
def isValue : Utf8.Bytes → Bool
  | 0x2d :: _ :: _ => false
  | _ => true

/-- Read a cluster of short options. The result names the option that still needs its value. -/
def cluster (s : Seen) : Utf8.Bytes → Except Refusal (Seen × Option Switch)
  | [] => .ok (s, none)
  | b :: rest =>
    match s.level.short? b with
    | none => .error .usage
    | some o =>
      match o.arity with
      | .flag =>
        match s.add o [] with
        | .error r => .error r
        | .ok s => cluster s rest
      | .value =>
        match rest with
        | [] => .ok (s, some o)
        | 0x3d :: value => (s.add o value).map fun s => (s, none)
        | value => (s.add o value).map fun s => (s, none)

def long (s : Seen) (arg : Utf8.Bytes) : Except Refusal (Seen × Option Switch) :=
  let (name, value) : Utf8.Bytes × Option Utf8.Bytes :=
    match Text.breakAt? 0x3d arg with
    | some (name, value) => (name, some value)
    | none => (arg, none)
  match (Utf8.text? name).bind s.level.long? with
  | none => .error .usage
  | some o =>
    match o.arity, value with
    | .flag, none => (s.add o []).map fun s => (s, none)
    | .flag, some _ => .error .usage
    | .value, some value => (s.add o value).map fun s => (s, none)
    | .value, none => .ok (s, some o)

/-- Read arguments. The flag tells that the options have ended, and the option that it still
needs its value. -/
def read : (ended : Bool) → (pending : Option Switch) → Seen → List Utf8.Bytes →
    Except Refusal Seen
  | _, none, s, [] => .ok s
  | _, some _, _, [] => .error .usage
  | ended, some o, s, arg :: args =>
    if isValue arg then
      match s.add o arg with
      | .error r => .error r
      | .ok s => read ended none s args
    else .error .usage
  | true, none, s, arg :: args =>
    match s.addPath arg with
    | .error r => .error r
    | .ok s => read true none s args
  | false, none, s, arg :: args =>
    match arg with
    | [0x2d, 0x2d] => read true none s args
    | 0x2d :: 0x2d :: name =>
      match long s name with
      | .error r => .error r
      | .ok (s, pending) => read false pending s args
    | 0x2d :: b :: bs =>
      match cluster s (b :: bs) with
      | .error r => .error r
      | .ok (s, pending) => read false pending s args
    | word =>
      match s.addWord word with
      | .error r => .error r
      | .ok s => read false none s args

/-! ### What was asked for -/

def Seen.values (s : Seen) (o : Switch) : List Utf8.Bytes :=
  s.options.filterMap fun e => if e.2.1 = o then some e.2.2 else none

def Seen.has (s : Seen) (o : Switch) : Bool := !(s.values o).isEmpty

/-- The value of an option; the one given last counts. -/
def Seen.value? (s : Seen) (o : Switch) : Option Utf8.Bytes := (s.values o).getLast?

def Seen.texts (s : Seen) (o : Switch) : List Text := (s.values o).filterMap Utf8.text?

def Seen.text? (s : Seen) (o : Switch) : Option Text := (s.texts o).getLast?

def Seen.format (s : Seen) : Except Refusal ConfigFormat :=
  match s.text? .format with
  | some t => formatOf t
  | none => .ok .json

def Seen.buildArgs (s : Seen) : Except Refusal BuildArgs := do
  if s.has .output && s.has .stdout then throw .usage
  return {
    paths := s.paths
    output := s.value? .output
    defines := ← (s.texts .define).mapM defineOf
    ns := s.text? .ns
    includeDir := s.text? .includeDir
    roots := ← (s.texts .root).mapM rootOf
    noLines := s.has .noLines
    keepUnicode := s.has .keepUnicode
    emitMap := s.has .emitMap
    stdout := s.has .stdout
    jobs := ← (s.text? .jobs).mapM numberOf }

def Seen.command (s : Seen) : Except Refusal Command :=
  match s.level with
  | .top => .error .showHelp
  | .config => .error .usage
  | .build => Command.build <$> s.buildArgs
  | .configInit => do return .configInit (← s.format) (s.has .force)
  | .configShow => do return .configShow (← s.format)
  | .version => .ok .version

end Args

/-- Understand the arguments of the command line. -/
def Invocation.parse (args : List Utf8.Bytes) : Except Refusal Invocation := do
  let seen ← Args.read false none ⟨.top, [], []⟩ args
  return ⟨← seen.command, seen.value? .config⟩

end ShaderInline
