import DescLogic.Evaluation.Cached
import DescLogic.Generator.Candidates
import DescLogic.Generator.Config
import DescLogic.Log.Report
import Std.Data.HashSet
/-!
# Generating elements

A run forms elements in order of complexity, starting from the vocabulary, and keeps those that
are within the limits and new. With sample states, an element that denotes the same in all of them
as one kept earlier counts as not new. What a run forms stays in the factory, also what it does
not keep.

The limits on elements and time are looked at before every candidate, after every rule and before
every round. Once one of them is reached, the run proposes nothing more. How much time a run takes
is not up to it, so the run is given what its clock shows whenever it is read.

* `Generator.run`: the elements kept, in the order in which they were found, and the events of the
  run.
-/

namespace DescLogic.Generator

/-- An element that a run kept. -/
structure Kept where
  /-- The category. -/
  category : Category
  /-- The canonical description. -/
  text : String
  /-- The rule that formed it. -/
  rule : Rule
deriving DecidableEq, Repr

/-- What a run found. -/
structure Result where
  /-- The elements kept, in order of discovery. -/
  kept : Array Kept
  /-- Was the run cut short by the limit on elements or on time? -/
  limitReached : Bool
deriving DecidableEq, Repr

namespace Result

/-- The elements of a category, in order of discovery. -/
def texts (r : Result) (c : Category) : List String :=
  (r.kept.toList.filter fun k => k.category = c).map Kept.text

/-- All elements, category by category. -/
def allTexts (r : Result) : List String := Category.all.flatMap r.texts

/-- The number of elements. -/
def total (r : Result) : Nat := r.kept.size

/-- The number of elements that a rule formed. -/
def count (r : Result) (rule : Rule) : Nat := r.kept.toList.countP fun k => k.rule = rule

/-- The rules that formed an element, in their order, each with the number of its elements. -/
def ruleCounts (r : Result) : List (Rule × Nat) :=
  (Rule.all.map fun rule => (rule, r.count rule)).filter fun p => p.2 ≠ 0

/-- The number of elements of each category. -/
def text (r : Result) : String :=
  let counts := Category.all.map fun c => s!"{(r.texts c).length} {c}s"
  Text.joined ", " counts ++ if r.limitReached then " (limit reached)" else ""

instance : ToString Result where
  toString := text

end Result

/-- The time since the start of a run, for each time that the run reads it, the first time at `0`.
The unit is that of the limit on time. -/
abbrev Clock := Nat → Nat

/-- What a run is asked for, and the clock that times it. -/
structure Task where
  /-- The limits and rules. -/
  config : Config
  /-- The sample states. -/
  states : List State
  /-- What the clock shows. -/
  clock : Clock

/-- Are elements with equal denotations left out? Without sample states all denotations would be
equal. -/
def Task.deduplicates (t : Task) : Bool := t.config.deduplicates && !t.states.isEmpty

/-- The state of a run. -/
structure Progress where
  /-- The store in which elements are formed. -/
  factory : Factory
  /-- What was computed for the sample states. -/
  caches : Caches
  /-- The handles kept, by complexity. -/
  pool : Pool
  /-- The handles kept. -/
  placed : PerCategory fun c => Std.HashSet (Handle c)
  /-- The denotations of the elements kept. -/
  seen : PerCategory fun c => Std.HashSet (List (Meaning c))
  /-- What was found so far. -/
  result : Result
  /-- The events so far. -/
  events : Array LogEvent
  /-- The number of stored elements of which the events tell. -/
  reported : Nat
  /-- How often the clock was read. -/
  readings : Nat

/-- The start of a run in a factory. -/
def Progress.start (f : Factory) : Progress where
  factory := f
  caches := ∅
  pool := .ofFn fun _ => .empty
  placed := .ofFn fun _ => ∅
  seen := .ofFn fun _ => ∅
  result := ⟨#[], false⟩
  events := #[]
  reported := f.order.size
  readings := 0

/-- The steps of a run. -/
abbrev RunM := ExceptT Error (StateM Progress)

namespace RunM

variable {c : Category}

/-- Carries out a step on the factory. -/
def inFactory {α : Type} (x : BuildM α) : RunM α := fun p =>
  match p with
  | ⟨factory, caches, pool, placed, seen, result, events, reported, readings⟩ =>
    let (r, factory) := x factory
    (r, ⟨factory, caches, pool, placed, seen, result, events, reported, readings⟩)

/-- Carries out a step on the caches. -/
def inCaches {α : Type} (x : EvalM α) : RunM α := fun p =>
  match p with
  | ⟨factory, caches, pool, placed, seen, result, events, reported, readings⟩ =>
    let (r, caches) := x caches
    (r, ⟨factory, caches, pool, placed, seen, result, events, reported, readings⟩)

/-- Reports the insertions since the last report. -/
def reportInsertions : RunM Unit :=
  modify fun p =>
    { p with
      events := p.events.appendList (p.factory.insertionsSince p.reported)
      reported := p.factory.order.size }

/-- Reports an event, after the insertions that came before it. -/
def report (e : LogEvent) : RunM Unit := do
  reportInsertions
  modify fun p => { p with events := p.events.push e }

/-- Is the time up? Only a limit on time makes the run read its clock. -/
def timeIsUp (t : Task) : RunM Bool :=
  match t.config.timeLimit with
  | none => return false
  | some limit =>
    modifyGet fun p => (limit ≤ t.clock p.readings, { p with readings := p.readings + 1 })

/-- Is a limit reached? The first time that one is, a warning is reported. -/
def reachedLimit (t : Task) : RunM Bool := do
  let r := (← get).result
  if r.limitReached then return true
  let elements := t.config.maxElements.any (· ≤ r.total)
  let time ← timeIsUp t
  if !elements && !time then return false
  let which := if elements then "element" else "time"
  report (.atThreshold .warning 1
    s!"generation stopped after {r.total} elements: {which} limit reached")
  modify fun p => { p with result := { p.result with limitReached := true } }
  return true

/-- Does the element denote something on the sample states that no element kept before does? If so,
this is noted. -/
def isNovel (t : Task) (h : Handle c) : RunM Bool := do
  let ds ← inCaches (EvalM.evaluateBatch (← get).factory h t.states)
  if ((← get).seen.get c).contains ds then return false
  modify fun p => { p with seen := p.seen.modify c (·.insert ds) }
  return true

/-- Keeps an element. -/
def place (rule : Rule) (h : Handle c) (s : Summary) : RunM Unit :=
  modify fun p =>
    { p with
      pool := p.pool.modify c (·.push s.complexity h)
      placed := p.placed.modify c (·.insert h)
      result := { p.result with kept := p.result.kept.push ⟨c, s.text, rule⟩ } }

/-- Keeps an element unless it was kept before, is too complex, or is not novel. -/
def keepIfNew (t : Task) (rule : Rule) (h : Handle c) : RunM Unit := do
  let p ← get
  if (p.placed.get c).contains h then return
  let e ← (p.factory.entry h : Except Error (Entry c))
  if t.config.limit c < e.summary.complexity then return
  if t.deduplicates then
    unless ← isNovel t h do return
  place rule h e.summary

/-- Forms the candidates of a rule one after the other, until a limit is reached. -/
def consider (t : Task) (rule : Rule) : LazyList AnyNode → RunM Unit
  | .nil => return
  | .cons ⟨_, n⟩ ns => do
    if ← reachedLimit t then return
    let h ← inFactory (BuildM.make n)
    keepIfNew t rule h
    consider t rule (ns ())

/-- Forms the seeds of the rules, until a limit is reached. -/
def seed (t : Task) (v : Vocabulary) : List Rule → RunM Unit
  | [] => return
  | rule :: rules => do
    if (← get).result.limitReached then return
    consider t rule (rule.seeds v)
    seed t v rules

/-- Applies the rules to operands whose complexities add up to `n`, until a limit is reached. A
rule is left out if its elements would be too complex. -/
def applyRules (t : Task) (n : Nat) : List Rule → RunM Unit
  | [] => return
  | rule :: rules => do
    if n + 1 ≤ t.config.limit rule.category then
      consider t rule (rule.composites (← get).pool n)
    if ← reachedLimit t then return
    applyRules t n rules

/-- The rounds for complexity `n + 1` and the `count - 1` complexities after it, until a limit is
reached. -/
def rounds (t : Task) (n : Nat) : (count : Nat) → RunM Unit
  | 0 => return
  | count + 1 => do
    if ← reachedLimit t then return
    applyRules t n t.config.rules
    let r := (← get).result
    report (.atThreshold .info 1 s!"complexity {n + 1}: {r}")
    rounds t (n + 1) count

/-- A whole run: the seeds, then one round for each complexity up to the greatest limit. -/
def generate (t : Task) : RunM Result := do
  (t.states.forM (EvalM.checkVocabulary (← get).factory) : Except Error Unit)
  seed t (← get).factory.vocabulary t.config.rules
  let seeded := (← get).result
  report (.atThreshold .info 1 s!"seeded {seeded}")
  rounds t 1 (t.config.maxLimit - 1)
  let r := (← get).result
  r.ruleCounts.forM fun (rule, count) => report (.atThreshold .info 2 s!"{rule}: {count}")
  return r

end RunM

/-- What a run leaves behind. -/
structure Outcome where
  /-- What was found, or why the run failed. -/
  result : Except Error Result
  /-- The factory with the elements formed. -/
  factory : Factory
  /-- The events of the run. -/
  events : List LogEvent

/-- Generates elements in a factory. A foreign sample state is an error, and then nothing is
formed. Unless a clock is given, the run takes no time. -/
def run (config : Config) (states : List State) (f : Factory) (clock : Clock := fun _ => 0) :
    Outcome :=
  let (result, p) := (RunM.generate ⟨config, states, clock⟩).run (.start f)
  ⟨result, p.factory, p.events.toList⟩

end DescLogic.Generator
