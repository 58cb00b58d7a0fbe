import Constituency.Rule.Basic
import Constituency.Tree.Basic

/-!
# The rule at a node

An inner node of a tree uses one rule: its own label expanded into the labels
of its children. Trimming cuts function tags off the labels of categories and
leaves those of words alone. A node without a name, or with a child without
one, uses no rule.
-/

namespace Constituency

/-- The label that a node has on the right side of its parent's rule. -/
def childLabel (trim : Bool) (s : Symbol) : Symbol :=
  if trim && !s.isWordlike then s.base else s

/-- The sides of the rule at a node with the given label and child labels. -/
def localSides? (trim : Bool) (label : Symbol) (children : List Symbol) :
    Option (Symbol × List Symbol) :=
  if children.isEmpty || label.name.isEmpty || children.any (·.name.isEmpty) then none
  else some (if trim then label.base else label, children.map (childLabel trim))

namespace Tree

/-- The sides of the rule at the root. -/
def localSides? (trim : Bool) (t : Tree Symbol) : Option (Symbol × List Symbol) :=
  Constituency.localSides? trim t.label (t.children.map label)

/-- The rule at the root, with a given weight. -/
def localRule? {W : Type} (trim : Bool) (weight : W) (t : Tree Symbol) : Option (Rule W) :=
  (t.localSides? trim).bind (fun sides => Rule.ofSides? sides.1 sides.2 weight)

/-- The rules at all nodes that use one, in the order of the nodes. -/
def localRules {W : Type} (trim : Bool) (weight : W) (t : Tree Symbol) : List (Rule W) :=
  t.subtrees.filterMap (localRule? trim weight)

end Tree

end Constituency
