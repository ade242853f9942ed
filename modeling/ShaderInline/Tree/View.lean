import ShaderInline.Tree.Parse

/-! # Looking at a tree

Nodes and leaves together with where they start, and what the structural
nodes say: names, arguments, references, parameters and bodies.
-/

namespace ShaderInline

/-- A leaf and the offset at which it starts. -/
structure Leaf where
  start : Nat
  kind : Kind
  text : Text
  deriving DecidableEq, Repr

def Leaf.stop (l : Leaf) : Nat := l.start + Text.size l.text

structure Node where
  start : Nat
  kind : Kind
  children : List Tree
  deriving Repr

namespace Tree

/-- The trees of a list, each with the offset at which it starts. -/
def placed : Nat → List Tree → List (Nat × Tree)
  | _, [] => []
  | start, t :: ts => (start, t) :: placed (start + t.size) ts

mutual

def leavesFrom : Nat → Tree → List Leaf
  | start, leaf k t => [⟨start, k, t⟩]
  | start, node _ cs => leavesAllFrom start cs

def leavesAllFrom : Nat → List Tree → List Leaf
  | _, [] => []
  | start, t :: ts => leavesFrom start t ++ leavesAllFrom (start + t.size) ts

end

mutual

/-- The first leaf of a tree that starts at an offset. -/
def firstLeafFrom? : Nat → Tree → Option Leaf
  | start, leaf k t => some ⟨start, k, t⟩
  | start, node _ cs => firstLeafAllFrom? start cs

def firstLeafAllFrom? : Nat → List Tree → Option Leaf
  | _, [] => none
  | start, t :: ts =>
    match firstLeafFrom? start t with
    | some l => some l
    | none => firstLeafAllFrom? (start + t.size) ts

end

mutual

theorem firstLeafFrom?_eq_head? : ∀ (start : Nat) (t : Tree),
    firstLeafFrom? start t = (leavesFrom start t).head?
  | _, leaf _ _ => by rw [firstLeafFrom?, leavesFrom, List.head?_cons]
  | start, node _ cs => by rw [firstLeafFrom?, leavesFrom, firstLeafAllFrom?_eq_head? start cs]

theorem firstLeafAllFrom?_eq_head? : ∀ (start : Nat) (ts : List Tree),
    firstLeafAllFrom? start ts = (leavesAllFrom start ts).head?
  | _, [] => by rw [firstLeafAllFrom?, leavesAllFrom, List.head?_nil]
  | start, t :: ts => by
    rw [firstLeafAllFrom?, leavesAllFrom, firstLeafFrom?_eq_head? start t,
      firstLeafAllFrom?_eq_head? (start + t.size) ts, List.head?_append]
    cases (leavesFrom start t).head? <;> rfl

end

mutual

/-- The nodes of a tree that starts at an offset, each before those inside it. -/
def nodesFrom : Nat → Tree → List Node
  | _, leaf _ _ => []
  | start, node k cs => ⟨start, k, cs⟩ :: nodesAllFrom start cs

def nodesAllFrom : Nat → List Tree → List Node
  | _, [] => []
  | start, t :: ts => nodesFrom start t ++ nodesAllFrom (start + t.size) ts

end

end Tree

namespace Node

def text (n : Node) : Text := Tree.textAll n.children

def stop (n : Node) : Nat := n.start + Tree.sizeAll n.children

def ownLeaves (n : Node) : List Leaf :=
  (Tree.placed n.start n.children).filterMap fun
    | (start, .leaf k t) => some ⟨start, k, t⟩
    | (_, .node _ _) => none

def ownNodes (n : Node) : List Node :=
  (Tree.placed n.start n.children).filterMap fun
    | (_, .leaf _ _) => none
    | (start, .node k cs) => some ⟨start, k, cs⟩

def ownLeaf? (k : Kind) (n : Node) : Option Leaf := n.ownLeaves.find? (·.kind == k)

def ownNode? (k : Kind) (n : Node) : Option Node := n.ownNodes.find? (·.kind == k)

/-! ### Directives -/

def tag? (n : Node) : Option Leaf := n.ownLeaf? .tag

/-- The text of a tag without the mark it starts with. -/
def nameOfTag : Text → Text
  | [] => []
  | c :: cs => if c.isAlphanum || c == '_' then c :: cs else cs

def directiveName? (n : Node) : Option Text := n.tag?.map fun l => nameOfTag l.text

/-- The trees after the first tag. -/
def afterTag : List Tree → List Tree
  | [] => []
  | .leaf .tag _ :: ts => ts
  | _ :: ts => afterTag ts

def arguments (n : Node) : Text := Text.trim (Tree.textAll (afterTag n.children))

/-- The string that an import names its resource with. -/
def referenceLeaf? (n : Node) : Option Leaf := n.ownLeaf? .string

def unquote (t : Text) : Text :=
  match t with
  | '"' :: cs => if cs.getLast? == some '"' then cs.dropLast else t
  | _ => t

def reference? (n : Node) : Option Text := n.referenceLeaf?.map fun l => unquote l.text

/-! ### Definitions -/

/-- The words of a function before its parameters: its type and its name. -/
def words (n : Node) : List Leaf :=
  n.ownLeaves.filter fun l => l.kind == .ident || l.kind == .keyword

def returnType? (n : Node) : Option Text := n.words.head?.map (·.text)

def functionName? (n : Node) : Option Text := n.words[1]?.map (·.text)

def params? (n : Node) : Option Node := n.ownNode? (.block .paren)

def body? (n : Node) : Option Node := n.ownNode? (.block .brace)

def structName? (n : Node) : Option Text := (n.ownLeaf? .ident).map (·.text)

/-- The name by which a node can be looked up. -/
def name? (n : Node) : Option Text :=
  match n.kind with
  | .directive | .importDirective => n.directiveName?
  | .function => n.functionName?
  | .struct => n.structName?
  | _ => none

/-! ### Blocks -/

/-- The first leaf of a block, at any depth. -/
def openLeaf? (n : Node) : Option Leaf := Tree.firstLeafAllFrom? n.start n.children

theorem openLeaf?_eq (n : Node) :
    n.openLeaf? = (Tree.leavesAllFrom n.start n.children).head? :=
  Tree.firstLeafAllFrom?_eq_head? n.start n.children

/-- The closing delimiter of a block, if it has one. -/
def closeLeaf? (n : Node) : Option Leaf :=
  match n.children.getLast? with
  | some (.leaf k t) =>
    if n.kind.closer? = some k then some ⟨n.stop - Text.size t, k, t⟩ else none
  | _ => none

def isClosed (n : Node) : Bool := n.closeLeaf?.isSome

def innerStart (n : Node) : Nat :=
  match n.openLeaf? with
  | some l => l.stop
  | none => n.start

def innerStop (n : Node) : Nat :=
  match n.closeLeaf? with
  | some l => l.start
  | none => n.stop

end Node

namespace Document

def rootNode (d : Document) : Node :=
  match d.root with
  | .node k cs => ⟨0, k, cs⟩
  | .leaf k t => ⟨0, k, [.leaf k t]⟩

def nodes (d : Document) : List Node := d.root.nodesFrom 0

def leaves (d : Document) : List Leaf := d.root.leavesFrom 0

/-- The leaf that an offset lies in; at a boundary it is the one that starts there. -/
def leafAt? (d : Document) (offset : Nat) : Option Leaf :=
  d.leaves.find? fun l => l.start ≤ offset && offset < l.stop

/-- The nodes of a kind, possibly only those of a name, in order. -/
def query (d : Document) (kind : Kind) (name : Option Text) : List Node :=
  d.nodes.filter fun n => n.kind == kind && name.all fun m => n.name? == some m

def imports (d : Document) : List Node := d.query .importDirective none

/-- The first child of the root that is no blank, no comment and no line break. -/
def firstSignificant? (d : Document) : Option (Nat × Tree) :=
  (Tree.placed 0 d.rootNode.children).find? fun (_, t) => !t.kind.isTrivia && t.kind != .newline

/-- The directive that comes before all else, if it has the given name. -/
def leadingDirective? (d : Document) (name : Text) : Option Node :=
  match d.firstSignificant? with
  | some (start, .node .directive cs) =>
    let n : Node := ⟨start, .directive, cs⟩
    if n.directiveName? == some name then some n else none
  | _ => none

/-- The offset just past the line break that follows an offset, or the end of the text. -/
def endOfLine (d : Document) (offset : Nat) : Nat :=
  match d.leaves.find? fun l => offset ≤ l.start && l.kind == .newline with
  | some l => l.stop
  | none => d.size

end Document
end ShaderInline
