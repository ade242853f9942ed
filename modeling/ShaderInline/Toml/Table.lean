import ShaderInline.Json.Basic
import ShaderInline.Text.Search

/-! # Building TOML tables

A document is a series of headers and assignments. A table may be opened by one
header only and a key may be assigned only once. A dotted key goes down through
tables that have no header of their own and through the last table of an array,
but its value has to lie in a table that dotted keys have made. The members of a
table are sorted by their keys.
-/

namespace ShaderInline.Toml

/-- How a table came about. -/
inductive Origin where
  /-- By a header of one of its subtables. -/
  | implicit
  /-- By its own header. -/
  | header
  /-- By a dotted key. -/
  | dotted
  deriving DecidableEq, Repr

inductive Entry where
  | value (j : Json)
  | table (origin : Origin) (members : List (Text × Entry))
  /-- The tables of an array, each opened by its own header. -/
  | tables (items : List (List (Text × Entry)))
  deriving Repr

abbrev Members := List (Text × Entry)

namespace Members

def get? (k : Text) : Members → Option Entry
  | [] => none
  | (l, e) :: ms => if l = k then some e else get? k ms

def set (k : Text) (e : Entry) : Members → Members
  | [] => [(k, e)]
  | (l, f) :: ms =>
    if l = k then (l, e) :: ms
    else if Text.le l k then (l, f) :: set k e ms
    else (k, e) :: (l, f) :: ms

/-- Change the table with a key, which is made if it is missing. Of an array of tables the last
one is changed. -/
def descend (k : Text) (f : Members → Option Members) (ms : Members) : Option Members :=
  match ms.get? k with
  | none => (f []).map fun inner => ms.set k (.table .implicit inner)
  | some (.table origin inner) => (f inner).map fun inner => ms.set k (.table origin inner)
  | some (.tables items) =>
    (f (items.getLast?.getD [])).map fun last => ms.set k (.tables (items.dropLast ++ [last]))
  | some (.value _) => none

def within : List Text → (Members → Option Members) → Members → Option Members
  | [], f, ms => f ms
  | k :: ks, f, ms => descend k (within ks f) ms

def openTable : List Text → Members → Option Members
  | [], _ => none
  | [k], ms =>
    match ms.get? k with
    | none => some (ms.set k (.table .header []))
    | some (.table .implicit inner) => some (ms.set k (.table .header inner))
    | _ => none
  | k :: ks, ms => descend k (openTable ks) ms

def openItem : List Text → Members → Option Members
  | [], _ => none
  | [k], ms =>
    match ms.get? k with
    | none => some (ms.set k (.tables [[]]))
    | some (.tables items) => some (ms.set k (.tables (items ++ [[]])))
    | _ => none
  | k :: ks, ms => descend k (openItem ks) ms

/-- Assign a value to a dotted key. The flag tells whether the value may lie in this table. -/
def assignWithin (j : Json) : (fits : Bool) → List Text → Members → Option Members
  | _, [], _ => none
  | fits, [k], ms =>
    match ms.get? k with
    | none => if fits then some (ms.set k (.value j)) else none
    | some _ => none
  | _, k :: ks, ms =>
    match ms.get? k with
    | none => (assignWithin j true ks []).map fun inner => ms.set k (.table .dotted inner)
    | some (.table .header _) => none
    | some (.table origin inner) =>
      (assignWithin j (origin == .dotted) ks inner).map fun inner => ms.set k (.table origin inner)
    | some (.tables items) =>
      (assignWithin j false ks (items.getLast?.getD [])).map fun last =>
        ms.set k (.tables (items.dropLast ++ [last]))
    | some (.value _) => none

def assign (j : Json) (ks : List Text) (ms : Members) : Option Members := assignWithin j true ks ms

end Members

mutual

def Entry.toJson : Entry → Json
  | .value j => j
  | .table _ ms => .obj (membersToJson ms)
  | .tables items => .arr (itemsToJson items)

def membersToJson : List (Text × Entry) → List (Text × Json)
  | [] => []
  | (k, e) :: ms => (k, e.toJson) :: membersToJson ms

def itemsToJson : List (List (Text × Entry)) → List Json
  | [] => []
  | ms :: rest => .obj (membersToJson ms) :: itemsToJson rest

end

end ShaderInline.Toml
