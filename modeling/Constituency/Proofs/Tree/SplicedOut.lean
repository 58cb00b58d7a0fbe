import Constituency.Proofs.Tree.Parents
import Mathlib.Logic.Relation

/-!
# What splicing leaves of a table

Splicing helpers out of a table takes out of its preorder the inner nodes below the
root that are labelled by a helper, and nothing else. What hung from them hangs from
the nearest ancestor that is left. The order of what is left is read off the tree
behind the table, and the parents are read off the recursion: what replaces the
children of a node are the nodes that stay with only dissolved nodes in between.
-/

namespace Constituency

namespace NodeTable

/-! ## Ancestors -/

/-- A node lists a node below it as a child, or lists one of its ancestors. -/
def IsAncestor (t : NodeTable) : Nat → Nat → Prop :=
  Relation.TransGen t.IsParent

section Ancestors

variable {t : NodeTable} (h : t.Proper) {a b p c : Nat}
include h

/-- In a proper table ancestors have smaller numbers. -/
theorem Proper.lt_of_isAncestor (ancestor : t.IsAncestor a c) : a < c := by
  induction ancestor with
  | single parent => exact h.later _ parent.1 _ parent.2
  | tail _ parent before => exact Nat.lt_trans before (h.later _ parent.1 _ parent.2)

/-- In a proper table what has an ancestor is below the root and is not the root. -/
theorem Proper.mem_of_isAncestor (ancestor : t.IsAncestor a c) : c ∈ t.preorder ∧ c ≠ root := by
  cases ancestor with
  | single parent => exact h.mem_of_isParent parent
  | tail _ parent => exact h.mem_of_isParent parent

/-- In a proper table an ancestor is the parent or an ancestor of the parent. -/
theorem Proper.eq_or_isAncestor (ancestor : t.IsAncestor a c) (parent : t.IsParent p c) :
    a = p ∨ t.IsAncestor a p := by
  cases ancestor with
  | single other => exact .inl (h.isParent_unique other parent)
  | tail above other =>
    rw [← h.isParent_unique other parent]
    exact .inr above

/-- In a proper table two ancestors of a node are the same or one is an ancestor of the other. -/
theorem Proper.isAncestor_total (ha : t.IsAncestor a c) (hb : t.IsAncestor b c) :
    a = b ∨ t.IsAncestor a b ∨ t.IsAncestor b a := by
  induction hb with
  | single parent => exact (h.eq_or_isAncestor ha parent).imp_right .inl
  | tail above parent ih =>
    rcases h.eq_or_isAncestor ha parent with rfl | ha
    · exact .inr (.inr above)
    · exact ih ha

/-- In a proper table no ancestor of a parent is below it. -/
theorem Proper.not_isAncestor_between (parent : t.IsParent p c) (above : t.IsAncestor p a) :
    ¬t.IsAncestor a c := by
  intro below
  have up := h.lt_of_isAncestor above
  rcases h.eq_or_isAncestor below parent with rfl | below
  · exact Nat.lt_irrefl _ up
  · exact Nat.lt_asymm up (h.lt_of_isAncestor below)

end Ancestors

/-! ## Nodes that are dissolved -/

/-- A table is its nodes. -/
theorem eq_of_nodes {t u : NodeTable} (h : t.nodes = u.nodes) : t = u := by
  cases t
  cases u
  cases h
  rfl

section Splicing

variable (t : NodeTable) (isHelper : Symbol → Bool)

/-- Whether a node is an inner node below the root that is labelled by a helper. -/
def dissolves (i : Nat) : Bool :=
  i != root && !t.isLeaf i && isHelper (t.symbol i)

variable {t} (h : t.Proper)
include h

/-- In a proper table there is something in the place of children if there were any. -/
theorem Proper.isEmpty_splicedChildren {i : Nat} (hi : i ∈ t.preorder) :
    (t.splicedChildren isHelper i).isEmpty = t.isLeaf i := by
  have shapes := congrArg List.isEmpty (t.shapes_spliceHelpers isHelper hi)
  rwa [Tree.isEmpty_spliceAll, List.isEmpty_map, List.isEmpty_map,
    below_eq_children (h.later i hi)] at shapes

/-- In a proper table splicing makes no leaf of an inner node, and the other way round. -/
theorem Proper.isLeaf_spliceHelpers {i : Nat} (hi : i ∈ t.preorder) :
    (t.spliceHelpers isHelper).isLeaf i = t.isLeaf i := by
  rw [isLeaf, children_spliceHelpers t isHelper hi, h.isEmpty_splicedChildren isHelper hi]

/-- In a proper table what is dissolved is replaced by what replaces its children. -/
theorem Proper.splicedChildren_eq {i : Nat} (hi : i ∈ t.preorder) :
    t.splicedChildren isHelper i = (t.children i).flatMap fun c =>
      if t.dissolves isHelper c then t.splicedChildren isHelper c else [c] := by
  rw [NodeTable.splicedChildren_eq, below_eq_children (h.later i hi)]
  refine List.flatMap_congr fun c hc => ?_
  obtain ⟨reached, below⟩ := h.mem_of_isParent ⟨hi, hc⟩
  have inner : (c != root) = true := bne_iff_ne.mpr below
  rw [h.isEmpty_splicedChildren isHelper reached, dissolves, inner, Bool.true_and, Bool.and_comm]

/-- In a proper table the children of a node are replaced by the nodes that stay with only dissolved
nodes in between. -/
theorem Proper.mem_splicedChildren {i c : Nat} (hi : i ∈ t.preorder) :
    c ∈ t.splicedChildren isHelper i ↔ t.IsAncestor i c ∧ t.dissolves isHelper c = false ∧
      ∀ a, t.IsAncestor i a → t.IsAncestor a c → t.dissolves isHelper a = true := by
  constructor
  · intro hc
    rw [h.splicedChildren_eq isHelper hi, List.mem_flatMap] at hc
    obtain ⟨d, hd, hc⟩ := hc
    have parent : t.IsParent i d := ⟨hi, hd⟩
    split at hc
    · next dissolved =>
      obtain ⟨ancestor, stays, between⟩ :=
        (Proper.mem_splicedChildren (h.mem_of_isParent parent).1).mp hc
      refine ⟨.head parent ancestor, stays, fun a above below => ?_⟩
      -- two ancestors of `c` are comparable, and none is between `i` and its child
      rcases h.isAncestor_total below ancestor with rfl | upper | lower
      · exact dissolved
      · exact absurd upper (h.not_isAncestor_between parent above)
      · exact between a lower below
    · next stays =>
      rw [List.mem_singleton] at hc
      subst hc
      exact ⟨.single parent, Bool.eq_false_iff.mpr stays,
        fun a above below => absurd below (h.not_isAncestor_between parent above)⟩
  · rintro ⟨ancestor, stays, between⟩
    induction ancestor using Relation.TransGen.head_induction_on with
    | single parent =>
      rw [h.splicedChildren_eq isHelper hi, List.mem_flatMap]
      exact ⟨c, parent.2, by rw [stays]; exact List.mem_singleton_self c⟩
    | head parent below ih =>
      rw [h.splicedChildren_eq isHelper hi, List.mem_flatMap]
      refine ⟨_, parent.2, ?_⟩
      rw [if_pos (between _ (.single parent) below)]
      exact ih (h.mem_of_isParent parent).1 fun a above => between a (.head parent above)
termination_by t.size - i
decreasing_by
  have later := h.later i hi d hd
  have inside := t.lt_size_of_mem_preorder (h.mem_of_isParent parent).1
  omega

/-- In a proper table the nodes that are left are those that are not dissolved, in order. -/
theorem Proper.preorder_spliceHelpers :
    (t.spliceHelpers isHelper).preorder = t.preorder.filter fun i => !t.dissolves isHelper i := by
  have shape : t.shape = .node root ((t.below root).map t.shapeFrom) := t.shapeFrom_eq root
  generalize (t.below root).map t.shapeFrom = cs at shape
  have order : t.preorder = root :: Tree.labelsAll cs := by
    rw [preorder_eq_labels, shape, Tree.labels_node]
  have stays : ∀ u ∈ Tree.subtreesAll cs,
      (u.isLeaf || !isHelper (t.symbol u.label)) = !t.dissolves isHelper u.label := by
    intro u hu
    have listed : u.label ∈ Tree.labelsAll cs := List.mem_map_of_mem hu
    have nodup := h.nodup
    rw [order, List.nodup_cons] at nodup
    have below : (u.label != root) = true := bne_iff_ne.mpr fun same => nodup.1 (same ▸ listed)
    have whole : u ∈ t.shape.subtrees := by
      rw [shape, Tree.subtrees]
      exact List.mem_cons_of_mem _ hu
    rw [dissolves, below, h.isLeaf_label whole]
    cases u.isLeaf <;> simp
  rw [preorder_eq_labels, shape_spliceHelpers, shape, Tree.splice, Tree.labels_node,
    Tree.labelsAll_spliceAll, order, List.filter_cons_of_pos rfl, Tree.labelsAll, List.filter_map,
    List.filter_congr stays]
  rfl

/-- A node is left exactly when it was below the root and is not dissolved. -/
theorem Proper.mem_preorder_spliceHelpers {i : Nat} :
    i ∈ (t.spliceHelpers isHelper).preorder ↔
      i ∈ t.preorder ∧ t.dissolves isHelper i = false := by
  rw [h.preorder_spliceHelpers isHelper, List.mem_filter, Bool.not_eq_true']

/-- Where no node would be dissolved, splicing changes nothing. -/
theorem Proper.spliceHelpers_eq_self
    (stays : ∀ i ∈ t.preorder, t.dissolves isHelper i = false) : t.spliceHelpers isHelper = t := by
  refine eq_of_nodes (Array.ext_getElem? fun i => ?_)
  rw [NodeTable.spliceHelpers, getElem?_mapNodes]
  cases node : t.nodes[i]? with
  | none => rfl
  | some n =>
    rw [Option.map_some]
    split
    · next reached =>
      rw [Std.TreeSet.contains_ofList, List.contains_iff_mem] at reached
      have children : t.splicedChildren isHelper i = t.children i := by
        rw [h.splicedChildren_eq isHelper reached]
        refine (List.flatMap_congr fun c hc => ?_).trans (List.flatMap_singleton' _)
        rw [stays c (h.mem_of_isParent ⟨reached, hc⟩).1]
        rfl
      rw [children, NodeTable.children, node]
    · rfl

end Splicing

/-! ## Nearest ancestors -/

/-- Among the nodes of a list, a node is the nearest ancestor of another. -/
structure IsNearest (t : NodeTable) (among : List Nat) (p c : Nat) : Prop where
  /-- It is one of them. -/
  mem : p ∈ among
  /-- It is an ancestor. -/
  ancestor : t.IsAncestor p c
  /-- Every other ancestor among them is one of its own ancestors. -/
  nearest : ∀ a ∈ among, t.IsAncestor a c → a = p ∨ t.IsAncestor a p

section Splicing

variable {t : NodeTable} (isHelper : Symbol → Bool) (h : t.Proper)
include h

/-- In a proper table the nodes that are left hang from their nearest ancestors that are left. -/
theorem Proper.isParent_spliceHelpers {p c : Nat} :
    (t.spliceHelpers isHelper).IsParent p c ↔ c ∈ (t.spliceHelpers isHelper).preorder ∧
      t.IsNearest (t.spliceHelpers isHelper).preorder p c := by
  have left {i : Nat} := h.mem_preorder_spliceHelpers isHelper (i := i)
  constructor
  · rintro ⟨hp, hc⟩
    have reached := (left.mp hp).1
    rw [children_spliceHelpers t isHelper reached, h.mem_splicedChildren isHelper reached] at hc
    obtain ⟨ancestor, stays, between⟩ := hc
    refine ⟨left.mpr ⟨(h.mem_of_isAncestor ancestor).1, stays⟩, hp, ancestor, fun a ha above => ?_⟩
    rcases h.isAncestor_total above ancestor with same | upper | lower
    · exact .inl same
    · exact .inr upper
    · have dissolved := between a lower above
      rw [(left.mp ha).2] at dissolved
      cases dissolved
  · rintro ⟨hc, hp, ancestor, nearest⟩
    have reached := (left.mp hp).1
    refine ⟨hp, ?_⟩
    rw [children_spliceHelpers t isHelper reached, h.mem_splicedChildren isHelper reached]
    refine ⟨ancestor, (left.mp hc).2, fun a above below => ?_⟩
    -- a node in between that stays would be nearer
    by_contra stays
    have ha := left.mpr ⟨(h.mem_of_isAncestor above).1, Bool.eq_false_iff.mpr stays⟩
    have lower := h.lt_of_isAncestor above
    rcases nearest a ha below with rfl | upper
    · exact Nat.lt_irrefl _ lower
    · exact Nat.lt_asymm lower (h.lt_of_isAncestor upper)

/-- In a proper table splicing keeps the leaves. -/
theorem Proper.leaves_spliceHelpers : (t.spliceHelpers isHelper).leaves = t.leaves := by
  rw [(h.spliceHelpers isHelper).leaves_eq, h.leaves_eq, shape_spliceHelpers, Tree.words_splice]

/-- In a proper table no node that is left would be dissolved. -/
theorem Proper.dissolves_spliceHelpers {i : Nat} (hi : i ∈ (t.spliceHelpers isHelper).preorder) :
    (t.spliceHelpers isHelper).dissolves isHelper i = false := by
  obtain ⟨reached, stays⟩ := (h.mem_preorder_spliceHelpers isHelper).mp hi
  rw [dissolves, h.isLeaf_spliceHelpers isHelper reached, symbol_spliceHelpers]
  exact stays

/-- In a proper table splicing the same helpers out again changes nothing. -/
theorem Proper.spliceHelpers_spliceHelpers :
    (t.spliceHelpers isHelper).spliceHelpers isHelper = t.spliceHelpers isHelper :=
  (h.spliceHelpers isHelper).spliceHelpers_eq_self isHelper fun _ hi =>
    h.dissolves_spliceHelpers isHelper hi

end Splicing

/-! ## Exact splicing -/

/-- A table is what is left of another when helpers are spliced out of it. -/
structure SplicedOut (t : NodeTable) (isHelper : Symbol → Bool) (u : NodeTable) : Prop where
  /-- The nodes that are not dissolved are left, in order. -/
  preorder : u.preorder = t.preorder.filter fun i => !t.dissolves isHelper i
  /-- What is left hangs from its nearest ancestor that is left. -/
  parent : ∀ p c, u.IsParent p c ↔ c ∈ u.preorder ∧ t.IsNearest u.preorder p c
  /-- Every node that is left, other than the root, hangs from one node. -/
  has_parent : ∀ c ∈ u.preorder, c ≠ NodeTable.root → ∃! p, u.IsParent p c
  /-- Labels stay, those of nodes that are not left included. -/
  symbol : ∀ i, u.symbol i = t.symbol i
  /-- Leaves stay, whatever their labels. -/
  leaves : u.leaves = t.leaves
  /-- The words stay. -/
  words : u.words = t.words
  /-- The root stays, whatever its label. -/
  root : NodeTable.root ∈ u.preorder
  /-- No inner node below the root is labelled by a helper. -/
  free : ∀ i ∈ u.preorder, i ≠ NodeTable.root → u.isLeaf i = false → isHelper (u.symbol i) = false
  /-- Splicing again changes nothing. -/
  again : u.spliceHelpers isHelper = u

/-- Splicing helpers out of a table that was built takes out the helpers with children below the
root, hangs what is left from the nearest ancestors that are left, and keeps everything else. -/
theorem splicedOut_spliceHelpers {t : NodeTable} (h : t.Built) (isHelper : Symbol → Bool) :
    t.SplicedOut isHelper (t.spliceHelpers isHelper) := by
  have before := h.proper
  have after := before.spliceHelpers isHelper
  exact {
    preorder := before.preorder_spliceHelpers isHelper
    parent := fun p c => before.isParent_spliceHelpers isHelper
    has_parent := fun c hc below => by
      obtain ⟨p, parent⟩ := after.exists_isParent hc below
      exact ⟨p, parent, fun q other => after.isParent_unique other parent⟩
    symbol := t.symbol_spliceHelpers isHelper
    leaves := before.leaves_spliceHelpers isHelper
    words := by
      rw [words, words, before.leaves_spliceHelpers isHelper,
        funext (t.symbol_spliceHelpers isHelper)]
    root := root_mem_preorder _
    free := fun i hi below inner => by
      have stays := before.dissolves_spliceHelpers isHelper hi
      rwa [dissolves, inner, bne_iff_ne.mpr below, Bool.not_false, Bool.and_self,
        Bool.true_and] at stays
    again := before.spliceHelpers_spliceHelpers isHelper }

/-- Two nested helpers give way to their leaves; the root and the leaves with their names stay. -/
theorem splicedOut_nestedHelpers :
    (ofTree nestedHelpers).Built ∧
      (ofTree nestedHelpers).SplicedOut [⟨"X0"⟩, ⟨"X1"⟩].contains
        ((ofTree nestedHelpers).spliceHelpers [⟨"X0"⟩, ⟨"X1"⟩].contains) ∧
      ((ofTree nestedHelpers).spliceHelpers [⟨"X0"⟩, ⟨"X1"⟩].contains).preorder =
        [0, 3, 4, 5, 6, 7, 8] := by
  have built : (ofTree nestedHelpers).Built := .ofTree nestedHelpers
  have spliced := splicedOut_spliceHelpers built [⟨"X0"⟩, ⟨"X1"⟩].contains
  refine ⟨built, spliced, ?_⟩
  rw [spliced.preorder, preorder_ofTree]
  decide

end NodeTable

end Constituency
