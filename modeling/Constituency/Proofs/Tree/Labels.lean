import Constituency.Proofs.Tree.Leaves
import Constituency.Proofs.Tree.Table
import Mathlib.Data.List.TakeWhile

/-!
# What trimming makes of labels

A trimmed rule cuts the label of its node and those of the children that are not
spelled like words. Whether a child is a leaf plays no part. So a rule is
`Faithful` only when spelling and place in the tree agree wherever there is
something to cut: a leaf that looks like a tagged label loses its end, an inner
node that looks like a word keeps a tag that its own rule lacks, and a name that
starts with an equals sign is cut down to nothing.
-/

namespace Constituency

/-! ## Labels -/

namespace Symbol

/-- There is nothing to cut off: the name starts with a hyphen, or has neither a hyphen nor an
equals sign. -/
def Untagged (s : Symbol) : Prop :=
  s.name.toList.head? = some '-' ∨ '-' ∉ s.name.toList ∧ '=' ∉ s.name.toList

instance : DecidablePred Untagged := fun _ => inferInstanceAs (Decidable (_ ∨ _))

/-- A label that starts with a hyphen is not cut. -/
theorem base_of_hyphen {s : Symbol} (hyphen : s.name.toList.head? = some '-') : s.base = s := by
  unfold base
  split
  · rfl
  · next other =>
    match chars : s.name.toList with
    | [] => simp [chars] at hyphen
    | c :: cs =>
      rw [chars, List.head?_cons, Option.some_inj] at hyphen
      exact absurd (hyphen ▸ chars) (other cs)

/-- Another label is cut at the first hyphen or equals sign. -/
theorem toList_name_base {s : Symbol} (hyphen : s.name.toList.head? ≠ some '-') :
    s.base.name.toList = s.name.toList.takeWhile fun c => c != '-' && c != '=' := by
  unfold base
  split
  · next cs chars => exact absurd (by rw [chars]; rfl) hyphen
  · exact String.toList_ofList

/-- Trimming leaves a label as it is exactly when there is nothing to cut off. -/
theorem base_eq_self_iff {s : Symbol} : s.base = s ↔ s.Untagged := by
  unfold Untagged
  by_cases hyphen : s.name.toList.head? = some '-'
  · exact iff_of_true (base_of_hyphen hyphen) (Or.inl hyphen)
  · have same : s.base = s ↔ s.base.name.toList = s.name.toList := by
      rw [String.toList_inj]
      exact ⟨congrArg name, fun h => congrArg mk h⟩
    rw [same, toList_name_base hyphen, List.takeWhile_eq_self_iff]
    constructor
    · intro all
      exact Or.inr
        ⟨fun there => by simpa using all _ there, fun there => by simpa using all _ there⟩
    · rintro (front | ⟨noHyphen, noEquals⟩) c hc
      · exact absurd front hyphen
      · have first : c ≠ '-' := fun same => noHyphen (same ▸ hc)
        have second : c ≠ '=' := fun same => noEquals (same ▸ hc)
        simp [first, second]

/-- Trimming leaves no name exactly when there was none or it starts with an equals sign. -/
theorem name_base_eq_empty_iff {s : Symbol} :
    s.base.name = "" ↔ s.name = "" ∨ s.name.toList.head? = some '=' := by
  by_cases hyphen : s.name.toList.head? = some '-'
  · have named : s.name ≠ "" := fun empty => by simp [empty] at hyphen
    rw [base_of_hyphen hyphen, hyphen]
    simp [named]
  · rw [← String.toList_eq_nil_iff, toList_name_base hyphen, ← String.toList_eq_nil_iff]
    match s.name.toList, hyphen with
    | [], _ => simp
    | c :: cs, hyphen =>
      rw [List.head?_cons, Option.some_inj] at hyphen
      by_cases equals : c = '='
      · simp [equals]
      · simp [hyphen, equals]

/-- Trimming twice is trimming once. -/
theorem base_base (s : Symbol) : s.base.base = s.base := by
  rw [base_eq_self_iff]
  by_cases hyphen : s.name.toList.head? = some '-'
  · rw [base_of_hyphen hyphen]
    exact Or.inl hyphen
  · right
    rw [toList_name_base hyphen]
    constructor <;> exact fun there => absurd (List.mem_takeWhile_imp there) (by decide)

end Symbol

/-- A child's label is kept exactly when it is spelled like a word or has nothing to cut off. -/
theorem childLabel_eq_self_iff {s : Symbol} :
    childLabel true s = s ↔ s.isWordlike = true ∨ s.Untagged := by
  rw [← Symbol.base_eq_self_iff]
  cases word : s.isWordlike <;> simp [childLabel, word]

/-- A child's label is trimmed exactly when it is not spelled like a word or has nothing to cut
off. -/
theorem childLabel_eq_base_iff {s : Symbol} :
    childLabel true s = s.base ↔ s.isWordlike = false ∨ s.Untagged := by
  rw [← Symbol.base_eq_self_iff]
  cases word : s.isWordlike
  · simp [childLabel, word]
  · simp [childLabel, word, eq_comm]

/-- A child with a name stands in the rule without one exactly when it is not spelled like a word
and starts with an equals sign. -/
theorem name_childLabel_eq_empty_iff {s : Symbol} (named : s.name ≠ "") :
    (childLabel true s).name = "" ↔ s.isWordlike = false ∧ s.name.toList.head? = some '=' := by
  cases word : s.isWordlike with
  | true => simp [childLabel, word, named]
  | false => simp [childLabel, word, Symbol.name_base_eq_empty_iff, named]

/-- A label on the right side of a trimmed rule stays when it is trimmed again. -/
theorem childLabel_childLabel (a : Symbol) :
    childLabel true (childLabel true a) = childLabel true a := by
  cases word : a.isWordlike with
  | true => simp [childLabel, word]
  | false =>
    have trimmed : childLabel true a = a.base := by simp [childLabel, word]
    rw [trimmed, childLabel, Symbol.base_base, ite_self]

/-! ## The rule at a node -/

namespace NodeTable

variable {W : Type} {t : NodeTable} {i : Nat}

/-- What the rule at a node is made of: the node and its children have names, the left symbol is the
trimmed label, and the right symbols are those of the children. -/
structure LocalRule (t : NodeTable) (i : Nat) (r : Rule W) : Prop where
  /-- The left symbol is the trimmed label. -/
  left : r.left = (t.symbol i).base
  /-- The right symbols are those of the children. -/
  right : r.right = (t.children i).map fun c => childLabel true (t.symbol c)
  /-- The node has a name. -/
  named : (t.symbol i).name ≠ ""
  /-- The children have names. -/
  children_named : ∀ c ∈ t.children i, (t.symbol c).name ≠ ""

/-- The trimmed rule at a node is made of its label and those of its children. -/
theorem localRule_of_localRule? {weight : W} {r : Rule W}
    (rule : t.localRule? true weight i = some r) : t.LocalRule i r := by
  rw [localRule?, Option.bind_eq_some_iff] at rule
  obtain ⟨⟨left, right⟩, sides, made⟩ := rule
  rw [localSides?, Constituency.localSides?] at sides
  split at sides
  · cases sides
  · next named =>
    rw [Bool.or_eq_true, Bool.or_eq_true, not_or, not_or] at named
    obtain ⟨⟨-, label⟩, children⟩ := named
    rw [if_pos rfl] at sides
    cases sides
    rw [Rule.ofSides?] at made
    split at made
    · cases made
    · cases made
      refine ⟨rfl, by rw [List.map_map]; rfl, by simpa using label, fun c hc empty => children ?_⟩
      rw [List.any_map, List.any_eq_true]
      exact ⟨c, hc, by simp [empty]⟩

/-- The rules at the nodes below the root of a proper table are those at the nodes of its tree, in
the same order. -/
theorem Proper.filterMap_localRule?_preorder (h : t.Proper) (trim : Bool) (weight : W) :
    t.preorder.filterMap (t.localRule? trim weight) = t.toTree.localRules trim weight := by
  rw [preorder_eq_labels, Tree.labels, List.filterMap_map, toTree, Tree.localRules,
    Tree.subtrees_map, List.filterMap_map]
  refine List.filterMap_congr fun u hu => ?_
  have here := label_mem_preorder hu
  have children : (u.map t.symbol).children = (t.children u.label).map fun c =>
      (t.shapeFrom c).map t.symbol := by
    rw [eq_shapeFrom_of_mem_subtrees t root hu, shapeFrom_eq, Tree.map, Tree.mapAll_eq_map,
      below_eq_children (h.later _ here), Tree.children, List.map_map]
    rfl
  have label : ∀ c, ((t.shapeFrom c).map t.symbol).label = t.symbol c := by
    intro c
    rw [Tree.label_map, label_shapeFrom]
  rw [Function.comp_apply, Function.comp_apply, localRule?, localSides?, Tree.localRule?,
    Tree.localSides?, Tree.label_map, children, List.map_map]
  simp only [Function.comp_def, label]

/-- What one expects of the rule at a node. -/
structure Faithful (t : NodeTable) (i : Nat) (r : Rule W) : Prop where
  /-- Each child has one right symbol. -/
  length : r.right.length = (t.children i).length
  /-- That of a leaf is its own symbol. -/
  words : ∀ k c : Nat, (t.children i)[k]? = some c → t.isLeaf c = true →
    r.right[k]? = some (t.symbol c)
  /-- That of an inner node is its trimmed label, and the left symbol of its own rule if it has
  one. -/
  categories : ∀ k c : Nat, (t.children i)[k]? = some c → t.isLeaf c = false →
    r.right[k]? = some (t.symbol c).base ∧
      ∀ (weight : W) (below : Rule W), t.localRule? true weight c = some below →
        r.right[k]? = some below.left
  /-- Every symbol has a name. -/
  named : ∀ a ∈ r.left :: r.right, a.name ≠ ""

/-- A right symbol is what the label of its child becomes. -/
theorem LocalRule.getElem?_right {r : Rule W} (rule : t.LocalRule i r) {k c : Nat}
    (child : (t.children i)[k]? = some c) : r.right[k]? = some (childLabel true (t.symbol c)) := by
  rw [rule.right, List.getElem?_map, child, Option.map_some]

/-- The rule at a node is faithful exactly when spelling and place agree wherever there is something
to cut: leaves with tags are spelled like words, inner nodes with tags are not, and no label that is
cut starts with an equals sign. -/
theorem faithful_iff (t : NodeTable) (i : Nat) (weight : W) {r : Rule W}
    (rule : t.localRule? true weight i = some r) :
    Faithful t i r ↔
      (∀ c ∈ t.children i, t.isLeaf c = true →
        (t.symbol c).isWordlike = true ∨ (t.symbol c).Untagged) ∧
      (∀ c ∈ t.children i, t.isLeaf c = false →
        (t.symbol c).isWordlike = false ∨ (t.symbol c).Untagged) ∧
      (t.symbol i).name.toList.head? ≠ some '=' ∧
      ∀ c ∈ t.children i, (t.symbol c).isWordlike = false →
        (t.symbol c).name.toList.head? ≠ some '=' := by
  have here := localRule_of_localRule? rule
  have unnamed : ∀ c ∈ t.children i, (childLabel true (t.symbol c)).name = "" ↔
      (t.symbol c).isWordlike = false ∧ (t.symbol c).name.toList.head? = some '=' := fun c hc =>
    name_childLabel_eq_empty_iff (here.children_named c hc)
  constructor
  · intro faithful
    refine ⟨fun c hc leaf => ?_, fun c hc inner => ?_, fun equals => ?_,
      fun c hc label equals => ?_⟩
    · obtain ⟨k, child⟩ := List.getElem?_of_mem hc
      have kept := faithful.words k c child leaf
      rw [here.getElem?_right child, Option.some_inj] at kept
      exact childLabel_eq_self_iff.mp kept
    · obtain ⟨k, child⟩ := List.getElem?_of_mem hc
      have cut := (faithful.categories k c child inner).1
      rw [here.getElem?_right child, Option.some_inj] at cut
      exact childLabel_eq_base_iff.mp cut
    · apply faithful.named r.left List.mem_cons_self
      rw [here.left]
      exact Symbol.name_base_eq_empty_iff.mpr (Or.inr equals)
    · refine faithful.named _ (List.mem_cons_of_mem _ ?_) ((unnamed c hc).mpr ⟨label, equals⟩)
      rw [here.right]
      exact List.mem_map_of_mem hc
  · rintro ⟨words, categories, label, labels⟩
    constructor
    case length => rw [here.right, List.length_map]
    case words =>
      intro k c child leaf
      rw [here.getElem?_right child]
      exact congrArg some (childLabel_eq_self_iff.mpr (words c (List.mem_of_getElem? child) leaf))
    case categories =>
      intro k c child inner
      have cut : r.right[k]? = some (t.symbol c).base := by
        rw [here.getElem?_right child]
        exact congrArg some
          (childLabel_eq_base_iff.mpr (categories c (List.mem_of_getElem? child) inner))
      refine ⟨cut, fun weight below rule => ?_⟩
      rw [cut, (localRule_of_localRule? rule).left]
    case named =>
      intro a ha
      rcases List.mem_cons.mp ha with rfl | ha
      · rw [here.left, Ne, Symbol.name_base_eq_empty_iff, not_or]
        exact ⟨here.named, label⟩
      · rw [here.right] at ha
        obtain ⟨c, hc, rfl⟩ := List.mem_map.mp ha
        rw [Ne, unnamed c hc]
        exact fun ⟨category, equals⟩ => labels c hc category equals

/-- A sentence with tags on its labels and a word with a hyphen. -/
def tagged : NodeTable :=
  ofTree (.node ⟨"S"⟩ [.node ⟨"NP-SBJ"⟩ [.node ⟨"NN"⟩ [.node ⟨"e-mail"⟩ []]],
    .node ⟨"VP=1"⟩ [.node ⟨"arrived"⟩ []]])

/-- The rules at its root and above the word are faithful. -/
theorem faithful_tagged :
    tagged.localRule? true () 0 = some ⟨⟨"S"⟩, [⟨"NP"⟩, ⟨"VP"⟩], .binary, ()⟩ ∧
      Faithful tagged 0 (W := Unit) ⟨⟨"S"⟩, [⟨"NP"⟩, ⟨"VP"⟩], .binary, ()⟩ ∧
      tagged.localRule? true () 2 = some ⟨⟨"NN"⟩, [⟨"e-mail"⟩], .terminal, ()⟩ ∧
      Faithful tagged 2 (W := Unit) ⟨⟨"NN"⟩, [⟨"e-mail"⟩], .terminal, ()⟩ := by
  have root : tagged.localRule? true () 0 = some ⟨⟨"S"⟩, [⟨"NP"⟩, ⟨"VP"⟩], .binary, ()⟩ := by
    decide +kernel
  have word : tagged.localRule? true () 2 = some ⟨⟨"NN"⟩, [⟨"e-mail"⟩], .terminal, ()⟩ := by
    decide +kernel
  exact ⟨root, (faithful_iff tagged 0 () root).mpr (by decide +kernel), word,
    (faithful_iff tagged 2 () word).mpr (by decide +kernel)⟩

/-- A sentence with a phrase label that is spelled like a word, a word that is spelled like a tagged
label, and an equals sign. -/
def misread : NodeTable :=
  ofTree (.node ⟨"S"⟩ [.node ⟨"NP-sbj"⟩ [.node ⟨"dog"⟩ []], .node ⟨"NN"⟩ [.node ⟨"F-16"⟩ []],
    .node ⟨"SYM"⟩ [.node ⟨"="⟩ []]])

/-- The phrase keeps its tag above and loses it below, the word is cut, and the sign loses its
name. -/
theorem not_faithful_misread :
    (0 ∈ misread.preorder ∧ misread.localRule? true () 1 = some ⟨⟨"NP"⟩, [⟨"dog"⟩], .terminal, ()⟩ ∧
      ∃ r : Rule Unit, misread.localRule? true () 0 = some r ∧
        r.right = [⟨"NP-sbj"⟩, ⟨"NN"⟩, ⟨"SYM"⟩] ∧ ¬Faithful misread 0 r) ∧
    (3 ∈ misread.preorder ∧
      ∃ r : Rule Unit, misread.localRule? true () 3 = some r ∧ r.right = [⟨"F"⟩] ∧
        ¬Faithful misread 3 r) ∧
    5 ∈ misread.preorder ∧
      ∃ r : Rule Unit, misread.localRule? true () 5 = some r ∧ r.right = [⟨""⟩] ∧
        ¬Faithful misread 5 r := by
  refine ⟨⟨by decide +kernel, by decide +kernel,
    ⟨⟨"S"⟩, [⟨"NP-sbj"⟩, ⟨"NN"⟩, ⟨"SYM"⟩], .long, ()⟩, by decide +kernel, rfl, fun faithful => ?_⟩,
    ⟨by decide +kernel, ⟨⟨"NN"⟩, [⟨"F"⟩], .terminal, ()⟩, by decide +kernel, rfl,
      fun faithful => ?_⟩,
    by decide +kernel, ⟨⟨"SYM"⟩, [⟨""⟩], .terminal, ()⟩, by decide +kernel, rfl,
    fun faithful => ?_⟩
  · have cut := (faithful.categories 0 1 (by decide +kernel) (by decide +kernel)).1
    exact absurd cut (by decide +kernel)
  · have kept := faithful.words 0 4 (by decide +kernel) (by decide +kernel)
    exact absurd kept (by decide +kernel)
  · exact faithful.named ⟨""⟩ (by simp) rfl

end NodeTable

end Constituency
