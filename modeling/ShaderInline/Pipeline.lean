import ShaderInline.Ascii
import ShaderInline.Config.Basic
import ShaderInline.Expand

/-! # Building a shader

The imports are inlined first, then the line directives and the defines are put
in, and last the characters outside ASCII are dropped.
-/

namespace ShaderInline

structure Artifact where
  id : ResourceId
  text : Text
  /-- The document before characters were dropped. -/
  document : Document
  hadImports : Bool
  diagnostics : List Text
  /-- Given if the root had imports. -/
  map : Option SourceMap
  /-- The resources by the numbers in the line directives. -/
  paths : List ResourceId

namespace Artifact

def numbered : Nat → List ResourceId → List (Text × Json)
  | _, [] => []
  | n, id :: ids => (Text.decimal n, .str id.display) :: numbered (n + 1) ids

/-- What is written beside an artifact. -/
def manifest (a : Artifact) : Json :=
  .obj ([("resource".toList, a.id.toJson), ("hadImports".toList, .bool a.hadImports),
    ("resourcePaths".toList, .obj (numbered 0 a.paths)),
    ("diagnostics".toList, .arr (a.diagnostics.map .str))] ++
    (a.map.map fun m => ("sourceMap".toList, m.toJson)).toList)

end Artifact

structure Pipeline where
  schema : Schema
  config : Config
  store : Store
  /-- The number of loads after which the build is cancelled. -/
  cancelAfter : Option Nat

namespace Pipeline

def expandEnv (p : Pipeline) : ExpandEnv :=
  ⟨p.store, p.config.referenceOptions, p.config.maxImportDepth, p.cancelAfter⟩

/-- The document with its line directives. If they cannot be put in, it goes without. -/
def withLines (p : Pipeline) (root : Resource) (e : Expanded) : Document × List ResourceId :=
  match p.config.lineDirective? with
  | none => (e.document, [])
  | some w =>
    let map := e.map.getD (.identity root.id e.document.size)
    match w.inject e.document map e.contents with
    | .ok i => (i.document, i.paths)
    | .error _ => (e.document, [])

def build (p : Pipeline) (id : ResourceId) (text : Text) : Except Failure Artifact :=
  let source := id.display
  let root := Resource.parse p.schema id text
  match p.config.defines.validate root.document source with
  | .error f => .error f
  | .ok () =>
    match p.expandEnv.run root with
    | .error f => .error f
    | .ok e =>
      if !e.success then .error (.preprocess source e.report)
      else
        let (document, paths) := p.withLines root e
        match p.config.defines.inject document source with
        | .error f => .error f
        | .ok document =>
          .ok {
            id := id
            text :=
              if p.config.stripNonAscii then Text.stripNonAscii document.text else document.text
            document := document
            hadImports := e.hadImports
            diagnostics := e.diagnostics.map Diagnostic.display
            map := e.map
            paths := paths }

end Pipeline
end ShaderInline
