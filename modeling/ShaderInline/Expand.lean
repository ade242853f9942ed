import ShaderInline.Edit
import ShaderInline.Resource.Store
import ShaderInline.SourceMap

/-! # Inlining imports

Each import of a document is replaced by a comment that quotes it and by the
expansion of the resource it stands for, or by a warning if there is none. A
failed import never fails the run. A resource is not expanded inside itself,
and not deeper than a limit.
-/

namespace ShaderInline

/-- What a run works with. -/
structure ExpandEnv where
  store : Store
  options : Reference.Options
  /-- The deepest allowed chain of imports below the root. -/
  maxDepth : Nat
  /-- The number of loads after which the run is cancelled. -/
  cancelAfter : Option Nat

/-- What a run has done so far. -/
structure Progress where
  loads : Nat
  diagnostics : List Diagnostic
  contents : Contents
  deriving Repr

namespace Progress

def report (p : Progress) (d : Diagnostic) : Progress :=
  { p with diagnostics := p.diagnostics ++ [d] }

end Progress

def ExpandEnv.isCancelled (env : ExpandEnv) (p : Progress) : Bool :=
  env.cancelAfter.any fun n => n ≤ p.loads

structure Site where
  start : Nat
  stop : Nat
  reference : Text
  text : Text
  deriving Repr

def Document.sites (d : Document) : List Site :=
  d.imports.map fun n => ⟨n.start, n.stop, n.reference?.getD [], n.text⟩

/-- A document with its imports inlined. -/
structure Expansion where
  document : Document
  map : SourceMap
  hadImports : Bool

/-- What takes the place of an import. -/
inductive Inline where
  | expanded (id : ResourceId) (sourceSize : Nat) (expansion : Expansion)
  | failed (problem : Problem)

namespace Inline

/-- The comment that quotes an import. -/
def header (s : Site) : Text :=
  "/* ".toList ++ Text.partCommentEnds s.text ++ " */\n".toList

def warning (s : Site) (problem : Problem) : Text :=
  "// WARNING: import '".toList ++ s.reference ++ "' ".toList ++ problem.reason

def endLine (t : Text) : Text := if t.getLast? = some '\n' then t else t ++ ['\n']

/-- The text after the header. -/
def body (s : Site) : Inline → Text
  | expanded _ _ e => endLine e.document.text
  | failed problem => warning s problem

/-- Extend the map of a document with what takes the place of an import. -/
def extendMap (id : ResourceId) (s : Site) (i : Inline) (m : SourceMap) : SourceMap :=
  let m := m.pushSynthetic (Text.size (header s)) id s.start
  match i with
  | expanded child sourceSize e =>
    let m := m.append e.map
    if e.document.text.getLast? = some '\n' then m else m.pushSynthetic 1 child sourceSize
  | failed problem => m.pushSynthetic (Text.size (warning s problem)) id s.start

end Inline

namespace Resource

def inlineEdits (parts : List (Site × Inline)) : List Edit :=
  parts.map fun (s, i) => .replace s.start s.stop (Inline.header s ++ i.body s)

/-- The map of a document with its imports replaced, from an offset on. -/
def inlineMap (r : Resource) : (cursor : Nat) → List (Site × Inline) → SourceMap → SourceMap
  | cursor, [], m => m.pushVerbatim (r.document.size - cursor) r.id cursor
  | cursor, (s, i) :: parts, m =>
    inlineMap r s.stop parts
      (i.extendMap r.id s (m.pushVerbatim (s.start - cursor) r.id cursor))

/-- Replace all imports of a resource in one batch. -/
def inlineAll (r : Resource) (parts : List (Site × Inline)) : Except Failure Expansion :=
  match r.document.commit (inlineEdits parts) with
  | .error f => .error f
  | .ok document =>
    let map := inlineMap r 0 parts .empty
    if map.size = document.size then .ok ⟨document, map, true⟩
    else
      .error (.internal ("source map for ".toList ++ r.id.display ++ " covers ".toList ++
        Text.decimal map.size ++ " bytes but the output has ".toList ++
        Text.decimal document.size))

end Resource

/-- The outcome of a step of a run, and what the run has done by then. -/
abbrev Step (α : Type) := Except Failure α × Progress

/-- How a resource below the present one is expanded; `none` where the limit of depth is
reached. The list is the chain of resources from the root to its importer. -/
abbrev Below := Option (List ResourceId → Resource → Progress → Step Expansion)

namespace ExpandEnv

def cycleMessage (chain : List ResourceId) : Text :=
  "import cycle detected: ".toList ++ Text.join " -> ".toList (chain.map ResourceId.display)

def depthMessage (env : ExpandEnv) (id : ResourceId) : Text :=
  "import of ".toList ++ id.display ++ " exceeds the maximum depth of ".toList ++
    Text.decimal env.maxDepth

def fail (d : Diagnostic) (p : Progress) : Step Inline := (.ok (.failed d.problem), p.report d)

/-- What takes the place of an import that leads to a resource. The chain ends with the
importing resource. -/
def inlineChild (env : ExpandEnv) (below : Below) (chain : List ResourceId) (importer : ResourceId)
    (s : Site) (child : Resource) (p : Progress) : Step Inline :=
  if chain.contains child.id then
    fail ⟨s.reference, .importCycle, cycleMessage (chain ++ [child.id]), some importer⟩ p
  else
    match below with
    | none => fail ⟨s.reference, .depthExceeded, env.depthMessage child.id, some importer⟩ p
    | some expand =>
      match expand chain child { p with contents := p.contents.insert child.id child.content } with
      | (.ok e, p) => (.ok (.expanded child.id child.document.size e), p)
      | (.error f, p) => (.error f, p)

def inlineSite (env : ExpandEnv) (below : Below) (chain : List ResourceId) (r : Resource)
    (s : Site) (p : Progress) : Step Inline :=
  if env.isCancelled p then (.error (.cancelled r.id.display), p)
  else
    match Reference.resolve env.options (some r.id) s.reference with
    | .error d => fail d p
    | .ok id =>
      let p := { p with loads := p.loads + 1 }
      match env.store.fetch s.reference (some r.id) id with
      | .error d => fail d p
      | .ok content =>
        env.inlineChild below chain r.id s (.parse r.document.schema id content) p

def inlineSites (env : ExpandEnv) (below : Below) (chain : List ResourceId) (r : Resource) :
    List Site → Progress → Step (List (Site × Inline))
  | [], p => (.ok [], p)
  | s :: rest, p =>
    match env.inlineSite below chain r s p with
    | (.error f, p) => (.error f, p)
    | (.ok i, p) =>
      match inlineSites env below chain r rest p with
      | (.error f, p) => (.error f, p)
      | (.ok parts, p) => (.ok ((s, i) :: parts), p)

/-- Expand a resource, given how those below it are expanded. -/
def expandWith (env : ExpandEnv) (below : Below) (chain : List ResourceId) (r : Resource)
    (p : Progress) : Step Expansion :=
  if env.isCancelled p then (.error (.cancelled r.id.display), p)
  else
    match r.document.sites with
    | [] => (.ok ⟨r.document, .identity r.id r.document.size, false⟩, p)
    | sites =>
      match env.inlineSites below (chain ++ [r.id]) r sites p with
      | (.error f, p) => (.error f, p)
      | (.ok parts, p) => (r.inlineAll parts, p)

/-- Expand a resource below which so many levels of imports are allowed. -/
def expand (env : ExpandEnv) :
    (levels : Nat) → List ResourceId → Resource → Progress → Step Expansion
  | 0, chain, r, p => env.expandWith none chain r p
  | levels + 1, chain, r, p => env.expandWith (some (env.expand levels)) chain r p

end ExpandEnv

structure Expanded where
  document : Document
  /-- False only if the store failed. -/
  success : Bool
  hadImports : Bool
  diagnostics : List Diagnostic
  /-- Given if the root had imports. -/
  map : Option SourceMap
  contents : Contents

namespace Expanded

/-- The diagnostics, one a line. -/
def report (e : Expanded) : Text := Text.join ['\n'] (e.diagnostics.map Diagnostic.display)

end Expanded

namespace ExpandEnv

/-- A run from a root. -/
def trace (env : ExpandEnv) (root : Resource) : Step Expansion :=
  env.expand env.maxDepth [] root ⟨0, [], [(root.id, root.content)]⟩

/-- Inline all imports of a root. -/
def run (env : ExpandEnv) (root : Resource) : Except Failure Expanded :=
  match env.trace root with
  | (.error f, _) => .error f
  | (.ok e, p) =>
    .ok {
      document := e.document
      success := !p.diagnostics.any fun d => d.problem.isFatal
      hadImports := e.hadImports
      diagnostics := p.diagnostics
      map := if e.hadImports then some e.map else none
      contents := p.contents }

end ExpandEnv
end ShaderInline
