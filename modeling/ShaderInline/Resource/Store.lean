import ShaderInline.Failure
import ShaderInline.Resource.Reference
import ShaderInline.Tree.View

/-! # Stores of resources -/

namespace ShaderInline

/-- Where resources are loaded from. A resource may be missing, and loading may fail. -/
abbrev Store := ResourceId → Except Failure (Option Text)

/-- A store in memory: contents by id, each id at most once. -/
structure Shelf where
  entries : List (ResourceId × Text)
  deriving Repr

namespace Shelf

def empty : Shelf := ⟨[]⟩

def get? (s : Shelf) (id : ResourceId) : Option Text :=
  (s.entries.find? fun e => e.1 == id).map (·.2)

def erase (s : Shelf) (id : ResourceId) : Shelf := ⟨s.entries.filter fun e => e.1 != id⟩

def insert (s : Shelf) (id : ResourceId) (content : Text) : Shelf :=
  ⟨(id, content) :: (s.erase id).entries⟩

/-- Insert under the canonical form of an id; a text that is no such form is ignored. -/
def insertNamed (s : Shelf) (name content : Text) : Shelf :=
  match ResourceId.parse name with
  | .ok id => s.insert id content
  | .error _ => s

def size (s : Shelf) : Nat := s.entries.length

def store (s : Shelf) : Store := fun id => .ok (s.get? id)

end Shelf

namespace Store

/-- The content of a resource that a reference stands for. Empty content counts as none. -/
def fetch (store : Store) (reference : Text) (importer : Option ResourceId) (id : ResourceId) :
    Except Diagnostic Text :=
  match store id with
  | .ok (some []) => .error (.emptyContent reference id importer)
  | .ok (some content) => .ok content
  | .ok none => .error (.notFound reference id importer)
  | .error f => .error (.storeFailure reference importer f.message)

end Store

structure Resource where
  id : ResourceId
  content : Text
  document : Document

namespace Resource

def parse (schema : Schema) (id : ResourceId) (content : Text) : Resource :=
  ⟨id, content, .parse schema content⟩

/-- Resolve a reference and load what it stands for. -/
def ofReference (store : Store) (options : Reference.Options) (schema : Schema)
    (importer : Option ResourceId) (reference : Text) : Except Diagnostic Resource :=
  match Reference.resolve options importer reference with
  | .error d => .error d
  | .ok id =>
    match store.fetch reference importer id with
    | .error d => .error d
    | .ok content => .ok (parse schema id content)

end Resource

/-- The contents that took part in a run, in the order in which they were first seen. -/
abbrev Contents := List (ResourceId × Text)

namespace Contents

def get? (c : Contents) (id : ResourceId) : Option Text :=
  (c.find? fun e => e.1 == id).map (·.2)

/-- Add a content unless the resource is known already. -/
def insert (c : Contents) (id : ResourceId) (content : Text) : Contents :=
  if (c.get? id).isSome then c else c ++ [(id, content)]

end Contents
end ShaderInline
