import ShaderInline.Edit
import ShaderInline.LineIndex
import ShaderInline.Resource.Store
import ShaderInline.SourceMap

/-! # Line directives

At the start of each range of a source map a directive tells the line and the
resource the text comes from. A leading version line stays first.
-/

namespace ShaderInline

/-- How line directives are written, and which leading directive they may not precede. -/
structure LineDirective where
  marker : Text
  version : Text
  deriving DecidableEq, Repr

namespace LineDirective

def standardMarker : Text := "#line".toList

def ofMarker (marker : Text) : LineDirective := ⟨marker, "version".toList⟩

/-- The first offset at which a directive may stand. -/
def minOffset (w : LineDirective) (d : Document) : Nat :=
  match d.leadingDirective? w.version with
  | some n => d.endOfLine n.stop
  | none => 0

/-- Resources with their numbers: the number is the place in the list. -/
abbrev Numbering := List ResourceId

/-- The number of a resource, which gets the next one if it has none. -/
def number (ids : Numbering) (id : ResourceId) : Nat × Numbering :=
  match ids.findIdx? (· == id) with
  | some n => (n, ids)
  | none => (ids.length, ids ++ [id])

/-- The leaf that an offset lies in, and whether it is the first of its line. -/
def leafStarting (offset : Nat) : (startsLine : Bool) → List Leaf → Option (Leaf × Bool)
  | _, [] => none
  | startsLine, l :: ls =>
    if l.start ≤ offset && offset < l.stop then some (l, startsLine)
    else leafStarting offset (l.kind == .newline) ls

/-- One directive, with a line break before it unless it starts a line. -/
def render (w : LineDirective) (startsLine : Bool) (line id : Nat) : Text :=
  (if startsLine then [] else ['\n']) ++ w.marker ++ ' ' :: Text.decimal line ++
    ' ' :: Text.decimal id ++ ['\n']

/-- Directives by the offsets at which they are inserted; a later one replaces an earlier. -/
def put (offset : Nat) (t : Text) : List (Nat × Text) → List (Nat × Text)
  | [] => [(offset, t)]
  | (o, u) :: rest =>
    if offset < o then (offset, t) :: (o, u) :: rest
    else if offset = o then (o, t) :: rest
    else (o, u) :: put offset t rest

/-- What has been collected from the ranges so far. -/
structure Plan where
  ids : Numbering
  inserts : List (Nat × Text)
  deriving Repr

/-- Plan the directive of one range. A range gets none if it is empty, if it lies before the
first allowed offset, or if its resource has no known content. -/
def planRange (w : LineDirective) (d : Document) (leaves : List Leaf) (map : SourceMap)
    (contents : Contents) (min : Nat) (plan : Plan) (r : MapRange) : Plan :=
  if r.start ≥ r.stop || r.stop ≤ min then plan
  else
    let offset := max r.start min
    if offset ≥ d.size then plan
    else
      match map.query offset with
      | none => plan
      | some location =>
        match contents.get? location.resource with
        | none => plan
        | some content =>
          let line := (LineIndex.ofText content).line location.offset
          let (id, ids) := number plan.ids location.resource
          match leafStarting offset true leaves with
          | none => { plan with ids := ids }
          | some (leaf, startsLine) =>
            ⟨ids, put leaf.start (w.render startsLine line id) plan.inserts⟩

def plan (w : LineDirective) (d : Document) (map : SourceMap) (contents : Contents) : Plan :=
  map.ranges.foldl (w.planRange d d.leaves map contents (w.minOffset d)) ⟨[], []⟩

structure Injection where
  document : Document
  paths : Numbering

def inject (w : LineDirective) (d : Document) (map : SourceMap) (contents : Contents) :
    Except Failure Injection :=
  let plan := w.plan d map contents
  if plan.inserts.isEmpty then .ok ⟨d, plan.ids⟩
  else
    match d.commit (plan.inserts.map fun (offset, t) => .insert (.offset offset) t) with
    | .ok e => .ok ⟨e, plan.ids⟩
    | .error f => .error f

end LineDirective
end ShaderInline
