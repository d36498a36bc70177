import DescLogic.Proofs.Generator.Growth
import DescLogic.Proofs.Vocabulary
/-!
# Reachable factories

A factory is reached from the one without elements by forming nodes, by reading descriptions and by
runs of the generator, in any order. Calls that fail count too, for what they stored stays.

* `Reachable.grows`, `Reachable.valid`, `Reachable.vocabulary`: whatever calls came before, a
  reachable factory is valid and over its vocabulary.
* `calls_ofExpression`: reading a description given as an expression leads to no other factories.
-/

namespace DescLogic.Factory

open Procedure

variable {c : Category} {v : Vocabulary} {f g : Factory}

/-- `g` is what a call leaves of the factory `f`, whether it succeeds or not. -/
inductive Call (f : Factory) : Factory → Prop where
  /-- Forming a node. -/
  | make {c : Category} (n : Node Handle c) : Call f ((BuildM.make n).run f).2
  /-- Reading a description. -/
  | parse (c : Category) (text : String) : Call f ((BuildM.ofText c text).run f).2
  /-- A run of the generator. -/
  | generate (config : Generator.Config) (states : List State) (clock : Generator.Clock) :
      Call f (Generator.run config states f clock).factory

/-- `g` is what a list of calls leaves of the factory `f`. -/
def Calls (f g : Factory) : Prop := Relation.ReflTransGen Call f g

/-- The factory is what a list of calls leaves of the one without elements. -/
def Reachable (v : Vocabulary) (f : Factory) : Prop := (empty v).Calls f

theorem Call.grows (h : f.Call g) : f.Grows g := by
  cases h with
  | make n => exact moves_make n f
  | parse c text => exact moves_ofText moves_make c text f
  | generate config states clock => exact Generator.grows_run config states f clock

theorem Calls.grows (h : f.Calls g) : f.Grows g := by
  induction h with
  | refl => exact .refl f
  | tail _ call ih => exact ih.trans call.grows

theorem Reachable.valid (h : Reachable v f) : f.Valid :=
  Calls.grows h |>.valid (valid_empty v)

theorem Reachable.vocabulary (h : Reachable v f) : f.vocabulary = v :=
  (Calls.grows h).extends.vocabulary

/-! ## Descriptions as calls -/

instance : IsPreorder Factory Calls where
  refl _ := Relation.ReflTransGen.refl
  trans _ _ _ := Relation.ReflTransGen.trans

theorem calls_make_run (n : Node Handle c) (f : Factory) : f.Calls ((BuildM.make n).run f).2 :=
  .single (.make n)

/-- Reading an expression leads where forming its nodes leads. -/
theorem calls_ofExpression (c : Category) (e : Expression) :
    Moves Calls (BuildM.ofExpression c e) :=
  moves_ofExpression calls_make_run c e

theorem calls_ofArguments (head : String) (ps : List Parameter) (es : List Expression) :
    Moves Calls (BuildM.ofArguments head ps es) :=
  moves_ofArguments calls_make_run head ps es

end DescLogic.Factory
