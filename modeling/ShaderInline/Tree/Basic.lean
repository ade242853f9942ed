import ShaderInline.Text.Basic
import ShaderInline.Kind

/-! # Trees

A tree has texts at its leaves and kinds everywhere. Two trees are equal if
they have the same shape, kinds and texts.
-/

namespace ShaderInline

inductive Tree where
  | leaf (kind : Kind) (text : Text)
  | node (kind : Kind) (children : List Tree)
  deriving Repr

namespace Tree

def kind : Tree → Kind
  | leaf k _ => k
  | node k _ => k

mutual

/-- The text of a tree: the texts of its leaves in order. -/
def text : Tree → Text
  | leaf _ t => t
  | node _ cs => textAll cs

def textAll : List Tree → Text
  | [] => []
  | t :: ts => text t ++ textAll ts

end

mutual

def size : Tree → Nat
  | leaf _ t => Text.size t
  | node _ cs => sizeAll cs

def sizeAll : List Tree → Nat
  | [] => 0
  | t :: ts => size t + sizeAll ts

end

mutual

theorem size_eq : ∀ t : Tree, t.size = Text.size t.text
  | leaf _ _ => by rw [size, text]
  | node _ cs => by rw [size, text, sizeAll_eq cs]

theorem sizeAll_eq : ∀ ts : List Tree, sizeAll ts = Text.size (textAll ts)
  | [] => by rw [sizeAll, textAll, Text.size_nil]
  | t :: ts => by rw [sizeAll, textAll, Text.size_append, size_eq t, sizeAll_eq ts]

end

mutual

def leaves : Tree → List (Kind × Text)
  | leaf k t => [(k, t)]
  | node _ cs => leavesAll cs

def leavesAll : List Tree → List (Kind × Text)
  | [] => []
  | t :: ts => leaves t ++ leavesAll ts

end

mutual

/-- Equality of trees, decided leaf by leaf. -/
def same : Tree → Tree → Bool
  | leaf k t, leaf l u => k == l && t == u
  | node k cs, node l ds => k == l && sameAll cs ds
  | _, _ => false

def sameAll : List Tree → List Tree → Bool
  | [], [] => true
  | c :: cs, d :: ds => same c d && sameAll cs ds
  | _, _ => false

end

instance : BEq Tree := ⟨same⟩

end Tree
end ShaderInline
