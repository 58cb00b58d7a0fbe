import Constituency.Symbol

/-!
# Constituency trees

A tree is a label over a list of trees; a node without children is a leaf. The
leaves, read from left to right, are the words that the tree spells. Every
function on trees comes with its companion on lists of trees, and the
companions are the maps one expects.
-/

namespace Constituency

/-- A label over the trees below it. -/
inductive Tree (α : Type) where
  /-- A node with its children, from left to right. -/
  | node (label : α) (children : List (Tree α))
  deriving Repr

namespace Tree

variable {α β : Type}

/-- A node without children. -/
abbrev leaf (label : α) : Tree α := .node label []

instance [Inhabited α] : Inhabited (Tree α) := ⟨leaf default⟩

/-- The label at the root. -/
def label : Tree α → α
  | .node a _ => a

/-- The trees right below the root. -/
def children : Tree α → List (Tree α)
  | .node _ cs => cs

/-- Whether the tree is a single node. -/
def isLeaf (t : Tree α) : Bool :=
  t.children.isEmpty

mutual

/-- Whether two trees have equal shapes and equal labels. -/
def beq [BEq α] : Tree α → Tree α → Bool
  | .node a cs, .node b ds => a == b && beqAll cs ds

/-- Whether two lists of trees are equal one by one. -/
def beqAll [BEq α] : List (Tree α) → List (Tree α) → Bool
  | [], [] => true
  | c :: cs, d :: ds => c.beq d && beqAll cs ds
  | _, _ => false

end

instance [BEq α] : BEq (Tree α) := ⟨beq⟩

mutual

/-- The number of nodes. -/
def size : Tree α → Nat
  | .node _ cs => 1 + sizeAll cs

/-- The number of nodes of a list of trees. -/
def sizeAll : List (Tree α) → Nat
  | [] => 0
  | c :: cs => c.size + sizeAll cs

end

/-- Every tree has a node. -/
theorem size_pos (t : Tree α) : 0 < t.size := by
  cases t with
  | node a cs => rw [size]; omega

/-- The nodes of two lists of trees are counted list by list. -/
theorem sizeAll_append (cs ds : List (Tree α)) : sizeAll (cs ++ ds) = sizeAll cs + sizeAll ds := by
  induction cs with
  | nil => simp [sizeAll]
  | cons c cs ih => rw [List.cons_append, sizeAll, sizeAll, ih, Nat.add_assoc]

mutual

/-- Relabels every node. -/
def map (f : α → β) : Tree α → Tree β
  | .node a cs => .node (f a) (mapAll f cs)

/-- Relabels every node of a list of trees. -/
def mapAll (f : α → β) : List (Tree α) → List (Tree β)
  | [] => []
  | c :: cs => c.map f :: mapAll f cs

end

/-- The companion of `map` relabels the trees one by one. -/
theorem mapAll_eq_map (f : α → β) (cs : List (Tree α)) : mapAll f cs = cs.map (map f) := by
  induction cs with
  | nil => rfl
  | cons c cs ih => rw [mapAll, ih, List.map_cons]

mutual

/-- Relabels the leaves. -/
def mapLeaves (f : α → α) : Tree α → Tree α
  | .node a [] => .node (f a) []
  | .node a (c :: cs) => .node a (c.mapLeaves f :: mapLeavesAll f cs)

/-- Relabels the leaves of a list of trees. -/
def mapLeavesAll (f : α → α) : List (Tree α) → List (Tree α)
  | [] => []
  | c :: cs => c.mapLeaves f :: mapLeavesAll f cs

end

mutual

/-- The labels of the leaves, from left to right. -/
def words : Tree α → List α
  | .node a [] => [a]
  | .node _ (c :: cs) => c.words ++ wordsAll cs

/-- The labels of the leaves of a list of trees. -/
def wordsAll : List (Tree α) → List α
  | [] => []
  | c :: cs => c.words ++ wordsAll cs

end

mutual

/-- The subtrees, one for each node: parents before children, children from left to right. -/
def subtrees : Tree α → List (Tree α)
  | .node a cs => .node a cs :: subtreesAll cs

/-- The subtrees of a list of trees. -/
def subtreesAll : List (Tree α) → List (Tree α)
  | [] => []
  | c :: cs => c.subtrees ++ subtreesAll cs

end

/-- The labels, parents before children, children from left to right. -/
def labels (t : Tree α) : List α :=
  t.subtrees.map label

mutual

/-- The bracketed text: a leaf is its name, an inner node a bracket that opens with its label. -/
def text : Tree Symbol → String
  | .node a [] => a.name
  | .node a (c :: cs) => "(" ++ a.name ++ " " ++ c.text ++ textAll cs ++ ")"

/-- The bracketed texts of further children, each behind a space. -/
def textAll : List (Tree Symbol) → String
  | [] => ""
  | c :: cs => " " ++ c.text ++ textAll cs

end

end Tree

end Constituency
