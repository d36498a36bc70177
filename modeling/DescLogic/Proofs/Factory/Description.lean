import DescLogic.Proofs.Description
import DescLogic.Proofs.Factory.Identity
/-!
# Reading descriptions

An expression is read in a reachable factory if and only if it is well typed, that is, if it
describes a term over the vocabulary. The handle is then the one that forming the term operand by
operand gives.

* `describes_of_ofExpression`: what is read describes a term, which was formed.
* `Describes.exists_ofExpression`: what describes a term is read.
* `ofExpression_iff`: which expressions are read, the text of the element found, and that exchanging
  arguments of commutative operators leads to the same handle.
-/

namespace DescLogic

open Procedure Factory

variable {c : Category} {v : Vocabulary} {f g : Factory} {h : Handle c} {e : Expression}

theorem Expression.eq_leaf_of_bareName {name : String} (h : e.bareName = .ok name) :
    e = .leaf name := by
  obtain ⟨name', args⟩ := e
  cases args with
  | nil =>
    cases h
    rfl
  | cons _ _ => cases h

theorem Expression.eq_leaf_of_position {i : Nat} (h : e.position = .ok i) :
    ∃ s, e = .leaf s ∧ SpellsPosition s i := by
  obtain ⟨name, args⟩ := e
  unfold Expression.position at h
  cases spelled : positionValue? name with
  | none => simp [Expression.name, spelled] at h
  | some j =>
    cases args with
    | nil =>
      simp only [Expression.name, Expression.args, spelled, List.isEmpty_nil, if_true,
        Except.ok.injEq] at h
      subst h
      exact ⟨name, rfl, positionValue?_eq_some_iff.mp spelled⟩
    | cons _ _ => simp [Expression.name, Expression.args, spelled] at h

theorem Expression.position_leaf {s : String} {i : Nat} (h : SpellsPosition s i) :
    (Expression.leaf s).position = .ok i := by
  unfold Expression.position
  simp [Expression.leaf, Expression.name, Expression.args, positionValue?_eq_some_iff.mpr h]

namespace Factory

mutual

/-- What is read describes a term, and the handle is that of the term. -/
theorem describes_of_ofExpression (hv : v.Valid) {c : Category} : (e : Expression) →
    {f g : Factory} → {h : Handle c} → Reachable v f →
    (BuildM.ofExpression c e).run f = (.ok h, g) →
    ∃ t : Term c, e.Describes v t ∧ Formed v t g h
  | .node head es, f, g, h, hf, hrun => by
    rw [BuildM.ofExpression] at hrun
    obtain ⟨o, ho, hrun⟩ := run_lift_bind_eq_ok hrun
    obtain ⟨hs, f', hargs, made⟩ := run_bind_eq_ok hrun
    obtain ⟨rfl, length⟩ := Operator.ofHead_eq_ok ho
    obtain ⟨ts, hts, rel⟩ := describeAll_of_ofArguments hv o.signature es length hf hargs
    have calls : f.Calls f' := (calls_ofArguments o.keyword o.signature es).rel hargs
    have positions := (checks_of_make made).2
    rw [← Node.checkPositions_eq rel, Node.checkPositions_eq_ok_iff] at positions
    exact ⟨.mk o ts, .node hts positions,
      formed_mk.mpr ⟨f', hs, g, hf.trans calls, rel, made, .refl⟩⟩

/-- Arguments that are read describe arguments of a term. -/
theorem describeAll_of_ofArguments (hv : v.Valid) {head : String} : (ps : List Parameter) →
    (es : List Expression) → es.length = ps.length → {f g : Factory} → {hs : Args Handle ps} →
    Reachable v f → (BuildM.ofArguments head ps es).run f = (.ok hs, g) →
    ∃ ts : Args Term ps, Expression.DescribeAll v es ts ∧ ts.Rel (fun t x => Formed v t g x) hs
  | [], [], _, f, g, hs, hf, hrun => by
    cases hs
    exact ⟨.nil, .nil, .nil⟩
  | .predicate :: ps, e :: es, length, f, g, hs, hf, hrun => by
    rw [BuildM.ofArguments, run_bind_ok run_get] at hrun
    obtain ⟨name, hname, hrun⟩ := run_lift_bind_eq_ok hrun
    obtain ⟨p, hp, hrun⟩ := run_lift_bind_eq_ok hrun
    obtain ⟨rest, f', hrest, hrun⟩ := run_bind_eq_ok hrun
    cases hrun
    obtain ⟨ts, hts, rel⟩ :=
      describeAll_of_ofArguments hv ps es (by simpa using length) hf hrest
    rw [hf.vocabulary, hv.predicate_eq_ok_iff] at hp
    rw [Expression.eq_leaf_of_bareName hname, ← hp.2]
    exact ⟨_, .predicate hp.1 hts, .predicate p rel⟩
  | .constant :: ps, e :: es, length, f, g, hs, hf, hrun => by
    rw [BuildM.ofArguments, run_bind_ok run_get] at hrun
    obtain ⟨name, hname, hrun⟩ := run_lift_bind_eq_ok hrun
    obtain ⟨k, hk, hrun⟩ := run_lift_bind_eq_ok hrun
    obtain ⟨rest, f', hrest, hrun⟩ := run_bind_eq_ok hrun
    cases hrun
    obtain ⟨ts, hts, rel⟩ :=
      describeAll_of_ofArguments hv ps es (by simpa using length) hf hrest
    rw [hf.vocabulary, hv.constant_eq_ok_iff] at hk
    rw [Expression.eq_leaf_of_bareName hname, ← hk.2]
    exact ⟨_, .constant hk.1 hts, .constant k rel⟩
  | .position :: ps, e :: es, length, f, g, hs, hf, hrun => by
    rw [BuildM.ofArguments] at hrun
    obtain ⟨i, hi, hrun⟩ := run_lift_bind_eq_ok hrun
    obtain ⟨rest, f', hrest, hrun⟩ := run_bind_eq_ok hrun
    cases hrun
    obtain ⟨ts, hts, rel⟩ :=
      describeAll_of_ofArguments hv ps es (by simpa using length) hf hrest
    obtain ⟨s, rfl, spelled⟩ := Expression.eq_leaf_of_position hi
    exact ⟨_, .position spelled hts, .position i rel⟩
  | .element d :: ps, e :: es, length, f, g, hs, hf, hrun => by
    rw [BuildM.ofArguments] at hrun
    obtain ⟨x, f₁, hx, hrun⟩ := run_bind_eq_ok hrun
    obtain ⟨rest, f', hrest, hrun⟩ := run_bind_eq_ok hrun
    cases hrun
    obtain ⟨t, ht, formed⟩ := describes_of_ofExpression hv e hf hx
    have calls : f.Calls f₁ := (calls_ofExpression d e).rel hx
    have calls' : f₁.Calls g := (calls_ofArguments head ps es).rel hrest
    obtain ⟨ts, hts, rel⟩ :=
      describeAll_of_ofArguments hv ps es (by simpa using length) (hf.trans calls) hrest
    exact ⟨_, .element ht hts, .element (formed.calls calls') rel⟩

end

section Arguments

variable {ps : List Parameter} {head : String} {es : List Expression} {hs : Args Handle ps}

/-- The name of a predicate is read as the predicate. -/
theorem run_ofArguments_predicate (hv : v.Valid) (hf : Reachable v f) {p : Predicate}
    (hp : p ∈ v.predicates) (hargs : (BuildM.ofArguments head ps es).run f = (.ok hs, g)) :
    (BuildM.ofArguments head (.predicate :: ps) (.leaf p.name :: es)).run f =
      (.ok (.predicate p hs), g) := by
  have found : f.vocabulary.predicate p.name = .ok p := by
    rw [hf.vocabulary]
    exact hv.predicate_eq_ok_iff.mpr ⟨hp, rfl⟩
  rw [BuildM.ofArguments, run_bind_ok run_get]
  refine (run_lift_bind_ok (a := p.name) rfl).trans ?_
  rw [run_lift_bind_ok found, run_bind_ok hargs, run_pure]

/-- The name of a constant is read as the constant. -/
theorem run_ofArguments_constant (hv : v.Valid) (hf : Reachable v f) {k : Constant}
    (hk : k ∈ v.constants) (hargs : (BuildM.ofArguments head ps es).run f = (.ok hs, g)) :
    (BuildM.ofArguments head (.constant :: ps) (.leaf k.name :: es)).run f =
      (.ok (.constant k hs), g) := by
  have found : f.vocabulary.constant k.name = .ok k := by
    rw [hf.vocabulary]
    exact hv.constant_eq_ok_iff.mpr ⟨hk, rfl⟩
  rw [BuildM.ofArguments, run_bind_ok run_get]
  refine (run_lift_bind_ok (a := k.name) rfl).trans ?_
  rw [run_lift_bind_ok found, run_bind_ok hargs, run_pure]

/-- What spells a position is read as the position. -/
theorem run_ofArguments_position {s : String} {i : Nat} (hi : SpellsPosition s i)
    (hargs : (BuildM.ofArguments head ps es).run f = (.ok hs, g)) :
    (BuildM.ofArguments head (.position :: ps) (.leaf s :: es)).run f =
      (.ok (.position i hs), g) := by
  rw [BuildM.ofArguments, run_lift_bind_ok (Expression.position_leaf hi), run_bind_ok hargs,
    run_pure]

/-- What is read as an element is read before the arguments after it. -/
theorem run_ofArguments_element {d : Category} {x : Handle d} {f' : Factory}
    (hx : (BuildM.ofExpression d e).run f = (.ok x, f'))
    (hargs : (BuildM.ofArguments head ps es).run f' = (.ok hs, g)) :
    (BuildM.ofArguments head (.element d :: ps) (e :: es)).run f = (.ok (.element x hs), g) := by
  rw [BuildM.ofArguments, run_bind_ok hx, run_bind_ok hargs, run_pure]

end Arguments

/-- What describes a term is read, and the handle is that of the term. -/
theorem exists_ofExpression (hv : v.Valid) {t : Term c} (ht : e.Describes v t)
    (hf : Reachable v f) :
    ∃ h g, (BuildM.ofExpression c e).run f = (.ok h, g) ∧ Formed v t g h := by
  induction ht using Expression.Describes.rec
    (motive_2 := fun {ps} es ts _ => ∀ {f : Factory} (head : String), Reachable v f →
      ∃ hs g, (BuildM.ofArguments head ps es).run f = (.ok hs, g) ∧ f.Calls g ∧
        ts.Rel (fun t x => Formed v t g x) hs)
    generalizing f with
  | @node c o es ts hts range ih =>
    obtain ⟨hs, f', hargs, calls, rel⟩ := ih o.keyword hf
    have reached : Reachable v f' := hf.trans calls
    obtain ⟨h, g, made, formed⟩ := exists_formed_mk reached rel (hts.checkNames_eq hv)
      (Node.checkPositions_eq_ok_iff.mpr range)
    refine ⟨h, g, ?_, formed⟩
    rw [BuildM.ofExpression, hts.ofHead_eq, run_bind_ok run_lift, run_bind_ok hargs]
    exact made
  | nil =>
    rename_i hf
    exact ⟨.nil, _, by rw [BuildM.ofArguments, run_pure], .refl, .nil⟩
  | @predicate ps es ts p hp _ ih =>
    rename_i f head hf
    obtain ⟨hs, g, hargs, calls, rel⟩ := ih head hf
    exact ⟨.predicate p hs, g, run_ofArguments_predicate hv hf hp hargs, calls, .predicate p rel⟩
  | @constant ps es ts k hk _ ih =>
    rename_i f head hf
    obtain ⟨hs, g, hargs, calls, rel⟩ := ih head hf
    exact ⟨.constant k hs, g, run_ofArguments_constant hv hf hk hargs, calls, .constant k rel⟩
  | @position ps es ts s i hi _ ih =>
    rename_i f head hf
    obtain ⟨hs, g, hargs, calls, rel⟩ := ih head hf
    exact ⟨.position i hs, g, run_ofArguments_position hi hargs, calls, .position i rel⟩
  | @element ps d e es t ts _ _ ih ih' =>
    rename_i f head hf
    obtain ⟨x, f₁, hx, formed⟩ := ih hf
    have calls : f.Calls f₁ := (calls_ofExpression d e).rel hx
    obtain ⟨hs, g, hargs, calls', rel⟩ := ih' head (hf.trans calls)
    exact ⟨.element x hs, g, run_ofArguments_element hx hargs, calls.trans calls',
      .element (formed.calls calls') rel⟩

/-- **Reading descriptions.** In a factory over `v`, an expression is read if and only if it
describes a term over `v`. The text of the element found is the canonical text of the term, and an
expression with arguments of commutative operators exchanged is read too, then and at any later
time, and leads to the same handle. -/
theorem ofExpression_iff (hv : v.Built) (hf : Reachable v f) (c : Category) (e : Expression) :
    ((∃ h g, (BuildM.ofExpression c e).run f = (.ok h, g)) ↔ ∃ t : Term c, e.Describes v t) ∧
      ∀ {h : Handle c} {g : Factory}, (BuildM.ofExpression c e).run f = (.ok h, g) →
        (∀ t : Term c, e.Describes v t →
          (g.get? h).map (fun s => s.summary.text) = some t.canonText) ∧
        ∀ e' : Expression, e.Exchange e' → ∀ f' : Factory, g.Calls f' →
          ∃ g', (BuildM.ofExpression c e').run f' = (.ok h, g') := by
  refine ⟨⟨?_, ?_⟩, ?_⟩
  · rintro ⟨h, g, hrun⟩
    obtain ⟨t, ht, -⟩ := describes_of_ofExpression hv.valid e hf hrun
    exact ⟨t, ht⟩
  · rintro ⟨t, ht⟩
    obtain ⟨h, g, hrun, -⟩ := exists_ofExpression hv.valid ht hf
    exact ⟨h, g, hrun⟩
  · intro h g hrun
    have calls : f.Calls g := (calls_ofExpression c e).rel hrun
    have formed : ∀ {t : Term c}, e.Describes v t → Formed v t g h := by
      intro t ht
      obtain ⟨h', g', hrun', formed⟩ := exists_ofExpression hv.valid ht hf
      rw [hrun] at hrun'
      cases hrun'
      exact formed
    constructor
    · intro t ht
      obtain ⟨reached, -, t', spelled, text⟩ := (formed ht).spells
      obtain ⟨s, hs⟩ := spelled.stored
      rw [hs, Option.map_some, reached.valid.summary_eq hs spelled, ← text]
      rfl
    · intro e' exchange f' calls'
      obtain ⟨t, ht, -⟩ := describes_of_ofExpression hv.valid e hf hrun
      obtain ⟨t', ht', exchange'⟩ := exchange.describes ht
      obtain ⟨h', g', hrun', formed'⟩ :=
        exists_ofExpression hv.valid ht' ((hf.trans calls).trans calls')
      have later : f'.Calls g' := (calls_ofExpression c e').rel hrun'
      have same : h = h' := by
        rw [((formed ht).calls (calls'.trans later)).eq_iff formed']
        exact exchange'.canonText_eq
      exact ⟨g', same ▸ hrun'⟩

/-- A position is printed without its sign, the operands of a conjunction in their order. -/
theorem ofExpression_iff_and :
    let p : Predicate := ⟨"p", 1, false, 0⟩
    let v : Vocabulary := ⟨0, #[p], #[]⟩
    let top : Expression := .leaf "c_top"
    let first : Expression := .node "c_primitive" [.leaf "p", .leaf "+0"]
    ∃ h g, (BuildM.ofExpression .concept (.node "c_and" [top, first])).run (empty v) = (.ok h, g) ∧
      (g.get? h).map (fun s => s.summary.text) = some "c_and(c_primitive(p,0),c_top)" ∧
      ∃ g', (BuildM.ofExpression .concept (.node "c_and" [first, top])).run g = (.ok h, g') := by
  intro p v top first
  have added : (Vocabulary.empty 0).addPredicate "p" 1 false = .ok (p, v) := by decide +kernel
  have hv : v.Built := .addPredicate (.empty 0) added
  let t : Term .concept := .mk .andConcept
    (.element (.mk .top .nil)
      (.element (.mk .primitiveConcept (.predicate p (.position 0 .nil))) .nil))
  have mem : p ∈ v.predicates := by simp [v]
  have zero : SpellsPosition "+0" 0 := positionValue?_eq_some_iff.mp (by decide +kernel)
  have described : (Expression.node "c_and" [top, first]).Describes v t :=
    .node (o := .andConcept)
      (.element (.node (o := .top) .nil trivial)
        (.element (.node (o := .primitiveConcept)
          (.predicate mem (.position zero .nil)) Nat.one_pos) .nil)) trivial
  obtain ⟨read, found⟩ := ofExpression_iff hv .refl .concept (.node "c_and" [top, first])
  obtain ⟨h, g, hrun⟩ := read.mpr ⟨t, described⟩
  obtain ⟨text, exchanged⟩ := found hrun
  refine ⟨h, g, hrun, ?_, exchanged _ (.swap top first (by decide)) g .refl⟩
  rw [text t described]
  decide +kernel

end Factory

end DescLogic
