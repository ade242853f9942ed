import ShaderInline.Files.Utf8
import ShaderInline.Text.Search

/-! # Paths

A path is kept as it is written, in bytes, and its names need not be texts. Its
components leave out what means nothing: doubled and trailing slashes and single
dots, except a dot in front.
-/

namespace ShaderInline

abbrev Path := Utf8.Bytes

namespace Path

inductive Component where
  | root
  | here
  | up
  | name (n : Utf8.Bytes)
  deriving DecidableEq, Repr

def slash : UInt8 := 0x2f

def dot : UInt8 := 0x2e

def isAbsolute (path : Path) : Bool := path.head? == some slash

/-- The component that a segment stands for, if it stands for one. -/
def component? (first : Bool) (segment : Utf8.Bytes) : Option Component :=
  if segment = [] then none
  else if segment = [dot] then if first then some .here else none
  else if segment = [dot, dot] then some .up
  else some (.name segment)

def components (path : Path) : List Component :=
  if isAbsolute path then .root :: (Text.split slash path).filterMap (component? false)
  else
    match Text.split slash path with
    | [] => []
    | s :: ss => (component? true s).toList ++ ss.filterMap (component? false)

/-- The order of components: names come last, by their bytes. -/
def Component.rank : Component → Nat
  | root => 0
  | here => 1
  | up => 2
  | name _ => 3

def nameLe : Utf8.Bytes → Utf8.Bytes → Bool
  | [], _ => true
  | _ :: _, [] => false
  | a :: as, b :: bs => if a = b then nameLe as bs else a < b

def componentLe : Component → Component → Bool
  | .name a, .name b => nameLe a b
  | a, b => a.rank ≤ b.rank

/-- The order of paths: component by component. -/
def componentsLe : List Component → List Component → Bool
  | [], _ => true
  | _ :: _, [] => false
  | a :: as, b :: bs => if a = b then componentsLe as bs else componentLe a b

def le (a b : Path) : Bool := componentsLe (components a) (components b)

/-- Paths are equal if their components are. -/
def same (a b : Path) : Bool := components a == components b

def fileName? (path : Path) : Option Utf8.Bytes :=
  match (components path).getLast? with
  | some (.name n) => some n
  | _ => none

/-- What follows the last dot of the name at the end of a path. A dot in front starts no
extension. -/
def extension? (path : Path) : Option Utf8.Bytes :=
  (fileName? path).bind fun name =>
    if !name.contains dot then none
    else
      let ext := (name.reverse.takeWhile (· != dot)).reverse
      if ext.length + 1 = name.length then none else some ext

/-- One path below another. An absolute one replaces it. -/
def join (path more : Path) : Path :=
  if isAbsolute more then more
  else if path.isEmpty || path.getLast? = some slash then path ++ more
  else path ++ slash :: more

/-- The path of a resource below a directory. -/
def descend (dir : Path) (path : Text) : Path :=
  ((Text.split '/' path).map Utf8.encode).foldl join dir

/-- Segments, last first, without those at the end that stand for no component. -/
def dropIdle (segments : List (Utf8.Bytes × Bool)) : List (Utf8.Bytes × Bool) :=
  segments.dropWhile fun s => (component? s.2 s.1).isNone

/-- Segments, each with whether a dot in it counts. -/
def marked (path : Path) : List (Utf8.Bytes × Bool) :=
  match Text.split slash path with
  | [] => []
  | s :: ss => (s, !isAbsolute path) :: ss.map fun s => (s, false)

/-- A path without its last component; the root and the empty path have no parent. -/
def parent? (path : Path) : Option Path :=
  match dropIdle (marked path).reverse with
  | [] => none
  | _ :: rest =>
    let kept := (dropIdle rest).reverse.map (·.1)
    if isAbsolute path && kept.isEmpty then some [slash] else some (Text.join [slash] kept)

/-- What is left of a list of components after a lead. -/
def below? : List Component → List Component → Option (List Component)
  | [], path => some path
  | _ :: _, [] => none
  | l :: lead, c :: path => if l = c then below? lead path else none

def names (cs : List Component) : List Utf8.Bytes :=
  cs.filterMap fun
    | .name n => some n
    | _ => none

end Path
end ShaderInline
