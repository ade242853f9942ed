import ShaderInline.Resource.Id

/-! # From a reference to a resource

A reference without slash and colon names a file in the include directory. One
with a colon names its namespace. One that starts with a dot segment is taken
relative to the importing resource. Any other is a path in the default
namespace. No path leads out of its namespace.
-/

namespace ShaderInline

inductive PathProblem where
  | invalidChar (c : Char)
  | empty
  deriving DecidableEq, Repr

namespace PathProblem

/-- A character between single quotes, with controls and the backslash escaped. -/
def showChar (c : Char) : Text :=
  let inside :=
    if c.toNat == 0 then ['\\', '0']
    else if c == '\t' then ['\\', 't']
    else if c == '\r' then ['\\', 'r']
    else if c == '\n' then ['\\', 'n']
    else if c == '\\' then ['\\', '\\']
    else if Text.isControl c then "\\u\x7b".toList ++ Nat.toDigits 16 c.toNat ++ "\x7d".toList
    else [c]
  '\'' :: (inside ++ ['\''])

def message : PathProblem → Text
  | invalidChar c => "invalid character ".toList ++ showChar c ++ " in path".toList
  | empty => "path is empty after normalization".toList

end PathProblem

namespace Reference

/-- The characters that no path may hold, apart from controls. -/
def forbidden : List Char := ['\\', '*', '?', '<', '>', '|', '"']

def isInvalid (c : Char) : Bool := Text.isControl c || forbidden.contains c

/-- Walk along the segments of a path; the segments walked so far stand in reverse. -/
def walk (behind : List Text) : List Text → List Text
  | [] => behind.reverse
  | segment :: rest =>
    if segment = [] || segment = ['.'] then walk behind rest
    else if segment = ['.', '.'] then walk behind.tail rest
    else walk (segment :: behind) rest

/-- A path without empty and dot segments. A double dot goes back by one segment, but never
above the root. -/
def normalize (path : Text) : Except PathProblem Text :=
  match path.find? isInvalid with
  | some c => .error (.invalidChar c)
  | none =>
    let segments := walk [] (Text.split '/' path)
    if segments.isEmpty then .error .empty else .ok (Text.join ['/'] segments)

def isNamespaceChar (c : Char) : Bool := c.isAlphanum || c == '_' || c == '-' || c == '.'

def isNamespace (t : Text) : Bool := !t.isEmpty && t.all isNamespaceChar

structure Options where
  /-- The namespace of references that name none. -/
  ns : Text
  /-- Where plain file names are looked for. -/
  includeDir : Text
  deriving DecidableEq, Repr

def Options.standard : Options := ⟨"shader".toList, "include".toList⟩

/-- The namespace and the path that a trimmed, non-empty reference stands for, before the path
is normalized. -/
def locate (options : Options) (importer : Option ResourceId) (reference : Text) :
    Except Diagnostic (Text × Text) :=
  match Text.breakAt? ':' reference with
  | some (ns, path) =>
    if isNamespace ns then .ok (ns, path)
    else
      .error (.malformed reference importer ("invalid namespace '".toList ++ ns ++ ['\'']))
  | none =>
    if !reference.contains '/' then
      if options.includeDir.isEmpty then .ok (options.ns, reference)
      else .ok (options.ns, options.includeDir ++ '/' :: reference)
    else
      match importer with
      | some id =>
        if Text.startsWith ['.', '/'] reference || Text.startsWith ['.', '.', '/'] reference then
          .ok (id.ns, id.dir ++ '/' :: reference)
        else .ok (options.ns, reference)
      | none => .ok (options.ns, reference)

def resolve (options : Options) (importer : Option ResourceId) (reference : Text) :
    Except Diagnostic ResourceId :=
  let reference := Text.trim reference
  if reference.isEmpty then .error (.emptyReference importer)
  else
    match locate options importer reference with
    | .error d => .error d
    | .ok (ns, path) =>
      match normalize path with
      | .ok path => .ok ⟨ns, path⟩
      | .error p => .error (.malformed reference importer p.message)

end Reference

/-- Read the canonical form of an id. -/
def ResourceId.parse (t : Text) : Except Diagnostic ResourceId :=
  match Text.breakAt? ':' t with
  | none => .error (.malformed t none "expected 'namespace:path'".toList)
  | some (ns, _) =>
    if ns.isEmpty then .error (.malformed t none "empty namespace".toList)
    else Reference.resolve .standard none t

end ShaderInline
