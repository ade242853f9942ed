import ShaderInline.Json.Basic
import ShaderInline.Text.Search

/-! # Resources and why they cannot be had -/

namespace ShaderInline

/-- What a resource is known by: a namespace and a path inside it. -/
structure ResourceId where
  ns : Text
  path : Text
  deriving DecidableEq, Repr

namespace ResourceId

/-- The path up to its last slash, without it. -/
def dir (id : ResourceId) : Text := ((id.path.reverse.dropWhile (· != '/')).drop 1).reverse

/-- The canonical form, namespace and path with a colon between them. -/
def display (id : ResourceId) : Text := id.ns ++ ':' :: id.path

def toJson (id : ResourceId) : Json :=
  .obj [("namespace".toList, .str id.ns), ("path".toList, .str id.path)]

end ResourceId

inductive Problem where
  | emptyReference
  | malformedReference
  | notFound
  | emptyContent
  | importCycle
  | depthExceeded
  /-- The store itself failed. -/
  | storeFailure
  deriving DecidableEq, Repr

namespace Problem

/-- The phrase that a warning in the output ends with. -/
def reason : Problem → Text
  | emptyReference => "is empty".toList
  | malformedReference => "is malformed".toList
  | notFound => "not found".toList
  | emptyContent => "resolved to empty content".toList
  | importCycle => "forms an import cycle".toList
  | depthExceeded => "exceeds the maximum import depth".toList
  | storeFailure => "could not be loaded".toList

/-- Only a fault of the store makes a whole run fail. -/
def isFatal : Problem → Bool
  | storeFailure => true
  | _ => false

/-- The word for a problem in written diagnostics. -/
def word : Problem → Text
  | emptyReference => "emptyReference".toList
  | malformedReference => "malformedReference".toList
  | notFound => "notFound".toList
  | emptyContent => "emptyContent".toList
  | importCycle => "importCycle".toList
  | depthExceeded => "depthExceeded".toList
  | storeFailure => "storeFailure".toList

end Problem

/-- A failed reference and the resource in which it stands. -/
structure Diagnostic where
  reference : Text
  problem : Problem
  message : Text
  importer : Option ResourceId
  deriving DecidableEq, Repr

namespace Diagnostic

def emptyReference (importer : Option ResourceId) : Diagnostic :=
  ⟨[], .emptyReference, "empty import reference".toList, importer⟩

def malformed (reference : Text) (importer : Option ResourceId) (detail : Text) : Diagnostic :=
  ⟨reference, .malformedReference,
    "malformed import reference '".toList ++ reference ++ "': ".toList ++ detail, importer⟩

def notFound (reference : Text) (id : ResourceId) (importer : Option ResourceId) : Diagnostic :=
  ⟨reference, .notFound,
    "import '".toList ++ reference ++ "' not found (looked for ".toList ++ id.display ++ [')'],
    importer⟩

def emptyContent (reference : Text) (id : ResourceId) (importer : Option ResourceId) :
    Diagnostic :=
  ⟨reference, .emptyContent,
    "import '".toList ++ reference ++ "' resolved to ".toList ++ id.display ++
      ", which is empty".toList, importer⟩

def storeFailure (reference : Text) (importer : Option ResourceId) (cause : Text) : Diagnostic :=
  ⟨reference, .storeFailure,
    "failed to load import '".toList ++ reference ++ "': ".toList ++ cause, importer⟩

/-- The message, and where the reference stands if that is known. -/
def display (d : Diagnostic) : Text :=
  match d.importer with
  | some id => d.message ++ " (in ".toList ++ id.display ++ [')']
  | none => d.message

def toJson (d : Diagnostic) : Json :=
  .obj ([("reference".toList, .str d.reference), ("kind".toList, .str d.problem.word),
    ("message".toList, .str d.message)] ++
    (d.importer.map fun id => ("relativeTo".toList, id.toJson)).toList)

end Diagnostic
end ShaderInline
