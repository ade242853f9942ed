import ShaderInline.Json.Record
import ShaderInline.Resource.Id

/-! # Source maps

A source map divides a generated text into ranges and says for each which
resource it comes from, and where in that resource it starts.
-/

namespace ShaderInline

/-- How a range relates to the text it comes from. -/
inductive Mapping where
  /-- Copied text: offsets go on one by one. -/
  | verbatim
  /-- Generated text: all of it belongs to one offset. -/
  | synthetic
  deriving DecidableEq, Repr

def Mapping.word : Mapping → Text
  | verbatim => "verbatim".toList
  | synthetic => "synthetic".toList

structure MapRange where
  start : Nat
  stop : Nat
  resource : ResourceId
  /-- Where the range starts in its resource. -/
  source : Nat
  mapping : Mapping
  deriving DecidableEq, Repr

namespace MapRange

def size (r : MapRange) : Nat := r.stop - r.start

def isEmpty (r : MapRange) : Bool := r.start == r.stop

def contains (r : MapRange) (offset : Nat) : Bool := r.start ≤ offset && offset < r.stop

/-- The offset in the resource for an offset inside the range. -/
def sourceOffset (r : MapRange) (offset : Nat) : Nat :=
  match r.mapping with
  | .verbatim => r.source + (offset - r.start)
  | .synthetic => r.source

/-- Whether copied text that starts at a source offset goes on where the range stops. -/
def continues (r : MapRange) (resource : ResourceId) (source : Nat) : Bool :=
  r.mapping == .verbatim && r.resource == resource && r.source + r.size == source

def toJson (r : MapRange) : Json :=
  .obj [("generatedStart".toList, .nat r.start), ("generatedEnd".toList, .nat r.stop),
    ("resource".toList, r.resource.toJson), ("originalStart".toList, .nat r.source),
    ("kind".toList, .str r.mapping.word)]

end MapRange

structure Location where
  resource : ResourceId
  offset : Nat
  deriving DecidableEq, Repr

structure SourceMap where
  ranges : List MapRange
  /-- The size of the generated text. -/
  size : Nat
  deriving DecidableEq, Repr

namespace SourceMap

def empty : SourceMap := ⟨[], 0⟩

/-- Append a range. Nothing is added for no text, and copied text that goes on with the last
range lengthens it. -/
def push (m : SourceMap) (len : Nat) (resource : ResourceId) (source : Nat) (mapping : Mapping) :
    SourceMap :=
  if len = 0 then m
  else
    let stop := m.size + len
    match m.ranges.getLast? with
    | some last =>
      if mapping == .verbatim && last.continues resource source then
        ⟨m.ranges.dropLast ++ [{ last with stop := stop }], stop⟩
      else ⟨m.ranges ++ [⟨m.size, stop, resource, source, mapping⟩], stop⟩
    | none => ⟨[⟨m.size, stop, resource, source, mapping⟩], stop⟩

def pushVerbatim (m : SourceMap) (len : Nat) (resource : ResourceId) (source : Nat) : SourceMap :=
  m.push len resource source .verbatim

def pushSynthetic (m : SourceMap) (len : Nat) (resource : ResourceId) (source : Nat) : SourceMap :=
  m.push len resource source .synthetic

def append (m nested : SourceMap) : SourceMap :=
  nested.ranges.foldl (fun m r => m.push r.size r.resource r.source r.mapping) m

def identity (resource : ResourceId) (len : Nat) : SourceMap := empty.pushVerbatim len resource 0

/-! ### Look-up by bisection -/

/-- Halve the interval of `size` indices from `base` until one index is left, keeping the upper
half if the property holds where it begins. -/
def narrow (p : Nat → Bool) : (steps base size : Nat) → Nat
  | 0, base, _ => base
  | steps + 1, base, size =>
    if size ≤ 1 then base
    else narrow p steps (if p (base + size / 2) then base + size / 2 else base) (size - size / 2)

/-- The number of leading indices below `n` with a property that holds of a leading part. -/
def partitionPoint (p : Nat → Bool) (n : Nat) : Nat :=
  if n = 0 then 0
  else
    let last := narrow p n 0 n
    if p last then last + 1 else last

/-- The first index at which a property of the ranges ends to hold. -/
def firstNot (m : SourceMap) (p : MapRange → Bool) : Nat :=
  partitionPoint (fun i => (m.ranges[i]?).any p) m.ranges.length

/-- Where an offset of the generated text comes from. -/
def query (m : SourceMap) (offset : Nat) : Option Location :=
  match m.ranges[m.firstNot fun r => r.stop ≤ offset]? with
  | some r => if r.contains offset then some ⟨r.resource, r.sourceOffset offset⟩ else none
  | none => none

def overlaps (m : SourceMap) (start stop : Nat) : List MapRange :=
  if start ≥ stop then []
  else
    let first := m.firstNot fun r => r.stop ≤ start
    let last := m.firstNot fun r => r.start < stop
    (m.ranges.drop first).take (last - first)

def toJson (m : SourceMap) : Json :=
  .obj [("ranges".toList, .arr (m.ranges.map MapRange.toJson)),
    ("generatedLen".toList, .nat m.size)]

/-! ### Reading the written form -/

def idOfJson? (j : Json) : Option ResourceId :=
  match Json.record? false ["namespace".toList, "path".toList] j with
  | some [some ns, some path] => do return ⟨← ns.text?, ← path.text?⟩
  | _ => none

def mappingOfWord? (t : Text) : Option Mapping :=
  [Mapping.verbatim, .synthetic].find? fun m => m.word == t

def mappingOfJson? : Json → Option Mapping
  | .str t => mappingOfWord? t
  | .obj [(t, .null)] => mappingOfWord? t
  | _ => none

def rangeFields : List Text :=
  ["generatedStart", "generatedEnd", "resource", "originalStart", "kind"].map String.toList

def rangeOfJson? (j : Json) : Option MapRange :=
  match Json.record? false rangeFields j with
  | some [some start, some stop, some resource, some source, some mapping] => do
    return ⟨← start.natBelow? Json.limit32, ← stop.natBelow? Json.limit32, ← idOfJson? resource,
      ← source.natBelow? Json.limit32, ← mappingOfJson? mapping⟩
  | _ => none

/-- Read a written map, as it is: its ranges need not be adjacent or ordered. -/
def ofJson? (j : Json) : Option SourceMap :=
  match Json.record? false ["ranges".toList, "generatedLen".toList] j with
  | some [some (.arr ranges), some size] => do
    return ⟨← ranges.mapM rangeOfJson?, ← size.natBelow? Json.limit32⟩
  | _ => none

end SourceMap
end ShaderInline
