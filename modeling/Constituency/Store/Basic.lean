import Constituency.Fault
import Constituency.Rule.Order
import Constituency.Sorted

/-!
# Rule stores

A store holds rules by number and lists the numbers twice: by left symbol and
right side, and by right side and left symbol. Both lists are sorted, so every
lookup is a bisection. No two rules have the same sides. Numbers count up and
are not used again; a removed rule leaves its number empty.
-/

namespace Constituency

/-- The number of a rule in its store. -/
abbrev RuleNumber := Nat

/-- Rules by number, with two sorted lists of the numbers. -/
structure Store (W : Type) where
  /-- The rules by number; a removed rule leaves none. -/
  slots : Array (Option (Rule W)) := #[]
  /-- The numbers in the order of left symbols, then right sides. -/
  byLeft : Array RuleNumber := #[]
  /-- The numbers in the order of right sides, then left symbols. -/
  byRight : Array RuleNumber := #[]

namespace Store

variable {W : Type}

/-- The rule with a number, if it was not removed. -/
def rule? (s : Store W) (id : RuleNumber) : Option (Rule W) :=
  s.slots[id]?.join

/-- The rule with a number, which must be stored. -/
def rule (s : Store W) (id : RuleNumber) : Except Fault (Rule W) :=
  match s.rule? id with
  | some r => .ok r
  | none => .error .noSuchRule

/-- The number of rules. -/
def size (s : Store W) : Nat :=
  s.byLeft.size

/-- The rules in the order of left symbols, then right sides. -/
def rules (s : Store W) : List (Rule W) :=
  s.byLeft.toList.filterMap s.rule?

/-- The rules in the order of right sides, then left symbols. -/
def rulesByRight (s : Store W) : List (Rule W) :=
  s.byRight.toList.filterMap s.rule?

/-- Compares the rule with a number; a number without a rule is behind every rule. -/
def compareAt (s : Store W) (order : Rule W → Ordering) (id : RuleNumber) : Ordering :=
  match s.rule? id with
  | some r => order r
  | none => .gt

/-- The place in the left list of the rule with the given sides. -/
def position? (s : Store W) (left : Symbol) (right : List Symbol) : Option Nat :=
  Sorted.position?
    (s.compareAt fun r => (compare r.left left).then (compare r.right right)) s.byLeft

/-- The number of the rule with the given sides. -/
def search (s : Store W) (left : Symbol) (right : List Symbol) : Option RuleNumber :=
  (s.position? left right).bind (s.byLeft[·]?)

/-- The rule with the given sides. -/
def withSides? (s : Store W) (left : Symbol) (right : List Symbol) : Option (Rule W) :=
  (s.search left right).bind s.rule?

/-- The place where a number goes in a sorted list: behind all that compare less. -/
def insertAt (s : Store W) (order : Rule W → Ordering) (index : Array RuleNumber)
    (id : RuleNumber) : Array RuleNumber :=
  index.insertIdxIfInBounds (Sorted.lowerBound (s.compareAt order · == .lt) index) id

/-- Stores a rule, unless one with the same sides is there; the answer tells which. -/
def add (s : Store W) (r : Rule W) : Store W × Bool :=
  match s.position? r.left r.right with
  | some _ => (s, false)
  | none =>
    let id := s.slots.size
    ({ slots := s.slots.push (some r)
       byLeft := s.insertAt (·.compareLeftFirst r) s.byLeft id
       byRight := s.insertAt (·.compareRightFirst r) s.byRight id }, true)

/-- Stores the rules of a list one by one. -/
def addAll (s : Store W) (rules : List (Rule W)) : Store W :=
  rules.foldl (fun s r => (s.add r).1) s

/-- Stores a rule at the end of both lists, which need not stay sorted. -/
def append (s : Store W) (r : Rule W) : Store W :=
  let id := s.slots.size
  { slots := s.slots.push (some r), byLeft := s.byLeft.push id, byRight := s.byRight.push id }

/-- The place of a number in the right list, among the rules that share the right side of `r`. -/
def rightPosition? (s : Store W) (r : Rule W) (id : RuleNumber) : Option Nat :=
  let order := s.compareAt (·.compareRight r)
  ((Sorted.run order s.byRight).idxOf? id).map
    (Sorted.lowerBound (order · == .lt) s.byRight + ·)

/-- Removes the rule with the sides of `r` and hands it back, if there is one. -/
def remove (s : Store W) (r : Rule W) : Except Fault (Store W × Option (Rule W)) :=
  match s.position? r.left r.right with
  | none => .ok (s, none)
  | some left =>
    match s.byLeft[left]? with
    | none => .ok (s, none)
    | some id =>
      match s.rightPosition? r id with
      | none => .error (.unindexedRule r.left r.right)
      | some right =>
        .ok ({ slots := s.slots.setIfInBounds id none
               byLeft := s.byLeft.eraseIdxIfInBounds left
               byRight := s.byRight.eraseIdxIfInBounds right }, s.rule? id)

/-- Changes every stored rule in place. -/
def mapRules (s : Store W) (f : Rule W → Rule W) : Store W :=
  { s with slots := s.slots.map (Option.map f) }

/-- Changes the weight of one rule in place. -/
def modifyWeight (s : Store W) (id : RuleNumber) (f : W → W) : Store W :=
  { s with slots := s.slots.modify id (Option.map fun r => { r with weight := f r.weight }) }

/-- Gives every rule the kind it has among the left symbols of the store. -/
def assignKinds (s : Store W) : Store W :=
  let heads := s.rules.map Rule.left
  s.mapRules (Rule.assignKind heads.contains)

/-- Numbers a list of rules in order and sorts the two lists of numbers. -/
def ofRules (rules : List (Rule W)) : Store W :=
  let sorted (order : Rule W → Rule W → Ordering) : Array RuleNumber :=
    ((rules.zipIdx.mergeSort fun a b => (order a.1 b.1).isLE).map Prod.snd).toArray
  { slots := (rules.map some).toArray
    byLeft := sorted Rule.compareLeftFirst
    byRight := sorted Rule.compareRightFirst }

/-- Drops the empty numbers, keeping the order of the others, and sorts both lists. -/
def renumber (s : Store W) : Store W :=
  ofRules (s.slots.toList.filterMap id)

/-- Whether every element compares to the next one as asked. -/
def adjacent (p : Rule W → Rule W → Bool) : List (Rule W) → Bool
  | a :: b :: rest => p a b && adjacent p (b :: rest)
  | _ => true

/-- Whether both lists hold the same numbers and are sorted, the left one without repetition. -/
def isCoherent (s : Store W) : Bool :=
  s.byLeft.toList.mergeSort == s.byRight.toList.mergeSort &&
    adjacent (fun a b => (a.compareLeftFirst b).isLT) s.rules &&
    adjacent (fun a b => (a.compareRightFirst b).isLE) s.rulesByRight

end Store

end Constituency
