import DescLogic.Factory.Basic
import DescLogic.Instance
import DescLogic.Log.Event
/-!
# What is reported

Registrations are reported at threshold 3 and insertions into a factory at threshold 4. They can
be read off what grew: `Instance.registrations` compares an instance before and after a call, and
`Factory.insertionsSince` lists the elements that came after the first so many.
-/

namespace DescLogic

/-- The event of a new predicate. -/
def Predicate.registered (p : Predicate) : LogEvent :=
  .atThreshold .debug 3 s!"registering predicate {p} at index {p.index}"

/-- The event of a new constant. -/
def Constant.registered (k : Constant) : LogEvent :=
  .atThreshold .debug 3 s!"registering constant {k} at index {k.index}"

/-- The event of a new atom. -/
def Atom.registered (a : Atom) : LogEvent :=
  let kind := if a.isStatic then "static atom" else "atom"
  .atThreshold .debug 3 s!"registering {kind} {a} at index {a.index}"

/-- The event of a new object. -/
def objectRegistered (name : String) (index : Nat) : LogEvent :=
  .atThreshold .debug 3 s!"registering object {name} at index {index}"

/-- The events of the objects and then of the atoms that an instance gained. -/
def Instance.registrations (before after : Instance) : List LogEvent :=
  let objects := (after.objects.extract before.objects.size).toList
  let atoms := (after.atoms.extract before.atoms.size).toList
  (objects.zipIdx before.objects.size).map (fun (name, index) => objectRegistered name index) ++
    atoms.map Atom.registered

/-- The event of a stored element. -/
def Factory.inserted (f : Factory) (h : AnyHandle) : LogEvent :=
  let text := ((f.get? h.2).map fun e => e.summary.text).getD ""
  .atThreshold .trace 4 s!"inserted {h.1} {text} at index {h.2.index}"

/-- The events of the elements stored after the first `count`. -/
def Factory.insertionsSince (f : Factory) (count : Nat) : List LogEvent :=
  (f.order.extract count).toList.map f.inserted

end DescLogic
