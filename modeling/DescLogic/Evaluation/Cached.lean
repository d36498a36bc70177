import DescLogic.Evaluation.Memo
import DescLogic.Factory.Basic
/-!
# Evaluation

An element is evaluated by evaluating its operands, from left to right, and combining their
denotations. The caches are asked before anything is computed, and they remember what was. The
denotation depends on the element and on the atoms that hold, never on what the caches remember.

The operands of a stored element are of lower complexity than the element, so its complexity
bounds the depth of the recursion.

* `Factory.evaluate`: the denotation of an element in a state, without caches.
* `EvalM.evaluate`: the same with caches.
* `EvalM.evaluateBatch`: the denotations of an element in a list of states.
-/

namespace DescLogic

/-- Computations that may fail and that use caches; what they remembered before failing stays. -/
abbrev EvalM := ExceptT Error (StateM Caches)

namespace EvalM

variable {c : Category}

/-- Looks an element up among the denotations in single states. -/
def lookUp (h : Handle c) (s : State) : EvalM (Option (Meaning c)) :=
  modifyGet fun k =>
    let (found, memo) := (k.states.get c).lookup (h, s.id)
    (found, { k with states := k.states.modify c fun _ => memo })

/-- Remembers the denotation of an element in a state. -/
def remember (h : Handle c) (s : State) (d : Meaning c) : EvalM Unit :=
  modify fun k => { k with states := k.states.modify c (·.insert (h, s.id) d) }

/-- The denotation of a node, whose operands `go` evaluates. The role between the end points of a
distance comes last, and only if they leave the value open. -/
def ofNode (s : State) (go : {d : Category} → Handle d → EvalM (Meaning d)) :
    {c : Category} → Node Handle c → EvalM (Meaning c)
  | _, ⟨.conceptDistance, .element x (.element r (.element y .nil))⟩ => do
    let source ← go x
    let target ← go y
    match settledDistance? source target with
    | some value => return value
    | none => return setDistance source (← go r) target
  | _, ⟨.sumConceptDistance, .element x (.element r (.element y .nil))⟩ => do
    let source ← go x
    let target ← go y
    if source.isEmpty || target.isEmpty then return unreachable
    return sumSetDistance source (← go r) target
  | _, ⟨.roleDistance, .element x (.element r (.element y .nil))⟩ => do
    let source ← go x
    let target ← go y
    if source.isEmpty || target.isEmpty then return unreachable
    return roleDistance source (← go r) target
  | _, ⟨.sumRoleDistance, .element x (.element r (.element y .nil))⟩ => do
    let source ← go x
    let target ← go y
    if source.isEmpty || target.isEmpty then return unreachable
    return sumRoleDistance source (← go r) target
  | _, n => do return Node.denote s ⟨n.operator, ← n.args.mapM go⟩

/-- The denotation of an element of complexity at most `fuel` in a state. -/
def meaning (f : Factory) (s : State) :
    (fuel : Nat) → {c : Category} → Handle c → EvalM (Meaning c)
  | 0, c, h => throw (.foreignElement c h.index)
  | fuel + 1, c, h => do
    match ← lookUp h s with
    | some d => return d
    | none =>
      let e ← (f.entry h : Except Error (Entry c))
      let d ← ofNode s (meaning f s fuel) e.node
      remember h s d
      return d

/-- A bound for the depth of evaluation: the complexity, or one level for a handle past the
table. -/
def depthBound (f : Factory) (h : Handle c) : Nat :=
  ((f.get? h).map fun e => e.summary.complexity).getD 1

/-- Refuses a state over another vocabulary than the factory's. -/
def checkVocabulary (f : Factory) (s : State) : Except Error Unit :=
  if s.vocabulary.id = f.vocabulary.id then .ok () else .error .vocabularyMismatch

/-- The denotation of an element in a state. -/
def evaluate (f : Factory) (h : Handle c) (s : State) : EvalM (Meaning c) := do
  (checkVocabulary f s : Except Error Unit)
  meaning f s (depthBound f h) h

/-- Looks an element up among the denotations in batches. -/
def lookUpBatch (h : Handle c) (number : Nat) : EvalM (Option (List (Meaning c))) :=
  modifyGet fun k =>
    let (found, memo) := (k.batches.get c).lookup (h, number)
    (found, { k with batches := k.batches.modify c fun _ => memo })

/-- Remembers the denotations of an element in a batch. -/
def rememberBatch (h : Handle c) (number : Nat) (ds : List (Meaning c)) : EvalM Unit :=
  modify fun k => { k with batches := k.batches.modify c (·.insert (h, number) ds) }

/-- The denotations of an element in the states of a batch, in their order. A foreign state is
refused before the caches are asked. -/
def evaluateBatch (f : Factory) (h : Handle c) (states : List State) :
    EvalM (List (Meaning c)) := do
  (states.forM (checkVocabulary f) : Except Error Unit)
  let number ← modifyGet fun k => k.batchNumber (states.map State.id)
  match ← lookUpBatch h number with
  | some ds => return ds
  | none =>
    let ds ← states.mapM fun s => meaning f s (depthBound f h) h
    rememberBatch h number ds
    return ds

end EvalM

/-- The denotation of an element in a state. -/
def Factory.evaluate {c : Category} (f : Factory) (h : Handle c) (s : State) :
    Except Error (Meaning c) :=
  ((EvalM.evaluate f h s).run ∅).1

end DescLogic
