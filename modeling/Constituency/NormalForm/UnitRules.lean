import Constituency.NormalForm.Pending
import Constituency.Store.Lookup

/-!
# Eliminating unit rules

A unit rule expands a category into one other category. It is replaced by the
rules one gets by expanding that category at once. The categories are taken one
after the other, each at most once, which is why cycles of unit rules do no
harm; a rule that expands a category into itself alone is never the reason to
expand it.
-/

namespace Constituency.Store

variable {W : Type}

/-- The categories on the right sides of unit rules, each once. -/
def unitTargets (s : Store W) : List Symbol :=
  ((s.rules.filter (·.kind == .unit)).flatMap Rule.right).eraseDups

/-- The category to expand next: the right side of the first unit rule that is no loop and whose
right side is still pending. -/
def nextUnitTarget? (s : Store W) (pending : List Symbol) : Option Symbol :=
  (s.rules.find? fun r =>
      r.kind == .unit && !r.isLoop && r.right.head?.any pending.contains).bind
    (·.right.head?)

variable [Weight W]

/-- Stores the rule that comes from applying one rule inside a unit rule. -/
def addComposed (s : Store W) (unit inner : Rule W) : Except Fault (Store W) :=
  if inner.right.isEmpty then .error (.emptyRightSide unit.left)
  else .ok (s.add ⟨unit.left, inner.right, inner.kind, Weight.compose unit.weight inner.weight⟩).1

/-- Replaces one rule for a category by the rules that expand the category inside it. -/
def expandUnit (s : Store W) (target : Symbol) (id : RuleNumber) : Except Fault (Store W) := do
  let unit ← s.rule id
  let s ← (s.idsWithLeft target).foldlM
    (fun s inner => do s.addComposed unit (← s.rule inner)) s
  let (s, _) ← s.remove unit
  return s

/-- Replaces all rules that expand something into the category alone. -/
def expandTarget (s : Store W) (target : Symbol) : Except Fault (Store W) :=
  (s.idsWithRight [target]).foldlM (fun s id => s.expandUnit target id) s

/-- Expands pending categories until no unit rule asks for one. -/
def eliminatePending (s : Store W) (pending : List Symbol) : Except Fault (Store W) :=
  match s.nextUnitTarget? pending with
  | none => .ok s
  | some target =>
    if h : target ∈ pending then do
      have := length_erase_lt_of_mem h
      let s ← s.expandTarget target
      s.eliminatePending (pending.erase target)
    else .ok s
termination_by pending.length

/-- Replaces every unit rule by the rules that its category expands into. -/
def eliminateUnits (s : Store W) : Except Fault (Store W) :=
  s.eliminatePending s.unitTargets

end Constituency.Store
