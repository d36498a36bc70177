import DescLogic.Proofs.Expression.Places
import DescLogic.Proofs.Factory.Preconditions
import DescLogic.Proofs.Factory.ReadBack
/-!
# Why a description is refused

An expression is refused if and only if something is wrong with a part of it that stands where an
element is due, and the kind of the error is that of something that is wrong.

* `Expression.Flaw`: what may be wrong with an expression, sorted by kinds of errors. A well-typed
  expression of a category that is due has no flaw (`Flaw.not_describes`).
* `Expression.flaw_of_ofHead`, `exists_refuses_of_ofArguments`, `exceeds_of_make`: the three steps
  of reading an expression, and what is wrong if one of them fails.
* `flaw_of_failure`: which expressions are refused, and why.
-/

namespace DescLogic

open Procedure

variable {c d : Category} {v : Vocabulary} {A B : Set Category} {f g : Factory} {e x : Expression}
  {es : List Expression} {k : Error.Kind} {err : Error}

/-! ## Flaws -/

namespace Expression

/-- The expression is not what a parameter asks for that takes no element. -/
inductive Misfits (v : Vocabulary) : Parameter → Expression → Error.Kind → Prop where
  /-- The name of a predicate was due, and there are arguments. -/
  | compoundPredicate {head : String} {es : List Expression} :
      es ≠ [] → Misfits v .predicate (.node head es) .malformed
  /-- The name of a constant was due, and there are arguments. -/
  | compoundConstant {head : String} {es : List Expression} :
      es ≠ [] → Misfits v .constant (.node head es) .malformed
  /-- A position was due, and this is not one written in digits without arguments. -/
  | notAPosition {e : Expression} :
      (∀ s i, SpellsPosition s i → e ≠ .leaf s) → Misfits v .position e .malformed
  /-- No predicate has the name. -/
  | unknownPredicate {s : String} :
      (∀ p ∈ v.predicates, p.name ≠ s) → Misfits v .predicate (.leaf s) .vocabulary
  /-- No constant has the name. -/
  | unknownConstant {s : String} :
      (∀ k ∈ v.constants, k.name ≠ s) → Misfits v .constant (.leaf s) .vocabulary

/-- A position among the arguments is outside the predicate or the pair that it points into, or a
predicate has places for arguments where it should have none. -/
inductive Exceeds (v : Vocabulary) :
    {c : Category} → Operator c → List Expression → Error.Kind → Prop where
  /-- The position of a primitive concept. -/
  | conceptPosition {p : Predicate} {s : String} {i : Nat} : p ∈ v.predicates →
      SpellsPosition s i → p.arity ≤ i →
      Exceeds v .primitiveConcept [.leaf p.name, .leaf s] .vocabulary
  /-- One of the two positions of a primitive role. -/
  | rolePosition {p : Predicate} {s s' : String} {i j : Nat} : p ∈ v.predicates →
      SpellsPosition s i → SpellsPosition s' j → p.arity ≤ i ∨ p.arity ≤ j →
      Exceeds v .primitiveRole [.leaf p.name, .leaf s, .leaf s'] .vocabulary
  /-- A boolean was due, and the predicate takes arguments. -/
  | nullary {p : Predicate} :
      p ∈ v.predicates → p.arity ≠ 0 → Exceeds v .nullary [.leaf p.name] .vocabulary
  /-- A coordinate beyond the second. -/
  | coordinate {x : Expression} {s : String} {i : Nat} :
      SpellsPosition s i → 1 < i → Exceeds v .projection [x, .leaf s] .structural

/-- Something is wrong with an expression that stands where an element of a category in `A` is due,
and an error of this kind says so. -/
inductive Flaw (v : Vocabulary) (A : Set Category) : Expression → Error.Kind → Prop where
  /-- The head is no keyword and does not have the stem of a category that is not due. -/
  | unknownHead {head : String} {es : List Expression} :
      (∀ {d : Category} (o : Operator d), o.keyword ≠ head) →
      (∀ d, Category.ofKeyword? head = some d → d ∈ A) → Flaw v A (.node head es) .malformed
  /-- The head has the stem of a category that is not due. -/
  | otherCategory {head : String} {es : List Expression} {d : Category} :
      Category.ofKeyword? head = some d → d ∉ A → Flaw v A (.node head es) .vocabulary
  /-- The operator takes another number of arguments. -/
  | argumentCount {c : Category} {o : Operator c} {es : List Expression} :
      c ∈ A → es.length ≠ o.signature.length → Flaw v A (.node o.keyword es) .malformed
  /-- An argument that is no element is not what is asked for. -/
  | argument {c : Category} {o : Operator c} {es : List Expression} {i : Nat} {p : Parameter}
      {x : Expression} {k : Error.Kind} :
      c ∈ A → es[i]? = some x → o.signature[i]? = some p → x.Misfits v p k →
      Flaw v A (.node o.keyword es) k
  /-- A position is out of range. -/
  | position {c : Category} {o : Operator c} {es : List Expression} {k : Error.Kind} :
      c ∈ A → Exceeds v o es k → Flaw v A (.node o.keyword es) k

/-- Nothing that is wrong with an expression is a matter of states. -/
theorem Flaw.kind_ne_mismatch (h : e.Flaw v A k) : k ≠ .mismatch := by
  cases h with
  | argument _ _ _ misfits => cases misfits <;> exact nofun
  | position _ exceeds => cases exceeds <;> exact nofun
  | _ => exact nofun

/-! ### Well-typed expressions have no flaw -/

theorem Misfits.not_fills {p : Parameter} {P : {c : Category} → Term c → Prop}
    (h : x.Misfits v p k) : ¬ x.Fills v P p := by
  intro fills
  cases h with
  | compoundPredicate compound | compoundConstant compound =>
    obtain ⟨_, -, same⟩ := fills
    cases same
    exact compound rfl
  | notAPosition other =>
    obtain ⟨s, i, same, spelled⟩ := fills
    exact other s i spelled same
  | unknownPredicate unknown | unknownConstant unknown =>
    obtain ⟨p, hp, same⟩ := fills
    cases same
    exact unknown p hp rfl

theorem Misfits.ne_element {p : Parameter} (h : x.Misfits v p k) : p ≠ .element d := by
  cases h <;> exact nofun

theorem Exceeds.exists_parameter {o : Operator c} (h : Exceeds v o es k) :
    ∃ (i : Nat) (p : Parameter), o.signature[i]? = some p ∧ ∀ d, p ≠ .element d := by
  cases h with
  | conceptPosition | rolePosition | nullary => exact ⟨0, .predicate, rfl, nofun⟩
  | coordinate => exact ⟨1, .position, rfl, nofun⟩

/-- Arguments with a position out of range describe nothing. -/
theorem Exceeds.not_inRange (hv : v.Valid) {o : Operator c} {ts : Args Term o.signature}
    (h : Exceeds v o es k) (hts : DescribeAll v es ts) : ¬ (⟨o, ts⟩ : Node Term c).InRange := by
  cases h with
  | conceptPosition hp hi le =>
    casesm* Args _ _
    obtain ⟨hp', same, hts⟩ := describeAll_predicate_iff.mp hts
    obtain ⟨hi', -⟩ := describeAll_position_iff.mp hts
    cases hv.predicate_name hp' hp same
    cases hi.unique hi'
    exact Nat.not_lt.mpr le
  | rolePosition hp hi hj le =>
    casesm* Args _ _
    obtain ⟨hp', same, hts⟩ := describeAll_predicate_iff.mp hts
    obtain ⟨hi', hts⟩ := describeAll_position_iff.mp hts
    obtain ⟨hj', -⟩ := describeAll_position_iff.mp hts
    cases hv.predicate_name hp' hp same
    cases hi.unique hi'
    cases hj.unique hj'
    rintro ⟨lt, lt'⟩
    omega
  | nullary hp ne =>
    casesm* Args _ _
    obtain ⟨hp', same, -⟩ := describeAll_predicate_iff.mp hts
    cases hv.predicate_name hp' hp same
    exact ne
  | coordinate hi lt =>
    casesm* Args _ _
    obtain ⟨-, hts⟩ := describeAll_element_iff.mp hts
    obtain ⟨hi', -⟩ := describeAll_position_iff.mp hts
    cases hi.unique hi'
    exact Nat.not_le.mpr lt

/-- A well-typed expression of a category that is due has no flaw. -/
theorem Flaw.not_describes (hv : v.Valid) {t : Term c} (h : e.Flaw v A k) (hc : c ∈ A) :
    ¬ e.Describes v t := by
  intro ht
  cases h with
  | unknownHead unknown =>
    obtain ⟨o, ts, keyword, -⟩ := ht.exists_operator
    exact unknown o keyword
  | otherCategory stem other =>
    cases stem.symm.trans ht.ofKeyword?_name
    exact other hc
  | argumentCount _ ne =>
    obtain ⟨o, ts, keyword, -, hts, -⟩ := ht.exists_operator
    obtain rfl := Operator.eq_of_keyword_eq keyword
    exact ne (hts.length_eq.trans (Operator.length_signature_eq keyword))
  | argument _ hx hi misfits =>
    obtain ⟨o, ts, keyword, -, hts, -⟩ := ht.exists_operator
    obtain rfl := Operator.eq_of_keyword_eq keyword
    obtain rfl :=
      Operator.eq_of_keyword_eq_of_ne_element keyword.symm hi fun _ => misfits.ne_element
    have all : ts.All fun _ => True := Args.all_of_forall (fun _ => trivial) ts
    exact misfits.not_fills (hts.fills all hx hi)
  | position _ exceeds =>
    obtain ⟨o, ts, keyword, -, hts, range⟩ := ht.exists_operator
    obtain rfl := Operator.eq_of_keyword_eq keyword
    obtain ⟨i, p, hi, other⟩ := exceeds.exists_parameter
    obtain rfl := Operator.eq_of_keyword_eq_of_ne_element keyword.symm hi other
    exact exceeds.not_inRange hv hts range

end Expression

/-! ## Reading the head -/

theorem Expression.setCategory_eq_error {head : String} (h : x.setCategory head = .error err) :
    Category.ofKeyword? x.name = none ∧ err.kind = .malformed ∨
      ∃ d, Category.ofKeyword? x.name = some d ∧ d ≠ .concept ∧ d ≠ .role ∧
        err.kind = .vocabulary := by
  unfold Expression.setCategory at h
  cases stem : Category.ofKeyword? x.name with
  | none =>
    rw [stem] at h
    cases h
    exact .inl ⟨rfl, rfl⟩
  | some d =>
    rw [stem] at h
    cases d <;> cases h <;> exact .inr ⟨_, rfl, by decide, by decide, rfl⟩

theorem Operator.ofKeyword?_of_keyword_eq {head : String} {o : Operator d}
    (h : o.keyword = head) : Category.ofKeyword? head = some d :=
  h ▸ o.ofKeyword?_keyword

namespace Expression

/-- A head that is no keyword of the category is unknown, or it has the stem of another one. -/
theorem flaw_of_unexpectedKeyword {head : String} (hc : c ∈ A)
    (only : ∀ d ∈ A, Category.ofKeyword? head = some d → d = c)
    (unknown : ∀ o : Operator c, o.keyword ≠ head) :
    (Expression.node head es).Flaw v A (unexpectedKeyword c head).kind := by
  unfold unexpectedKeyword
  cases stem : Category.ofKeyword? head with
  | none =>
    refine .unknownHead (fun o ho => ?_) (by simp [stem])
    rw [Operator.ofKeyword?_of_keyword_eq ho] at stem
    cases stem
  | some d =>
    by_cases same : d = c
    · subst same
      simp only [if_true]
      refine .unknownHead (fun o ho => ?_) fun d' stem' => ?_
      · rw [Operator.ofKeyword?_of_keyword_eq ho] at stem
        cases stem
        exact unknown o ho
      · cases stem.symm.trans stem'
        exact hc
    · simp only [same, if_false]
      exact .otherCategory stem fun hd => same (only d hd stem)

/-- If reading the head fails, something is wrong with the expression or with its first argument. -/
theorem flaw_of_ofHead {head : String} (hc : c ∈ A)
    (only : ∀ d ∈ A, Category.ofKeyword? head = some d → d = c)
    (failed : Operator.ofHead c head es = .error err) :
    ∃ B x, Stands A (.node head es) B x ∧ x.Flaw v B err.kind := by
  have outcome := Operator.headOutcome_ofHead c head es
  rw [failed] at outcome
  cases outcome with
  | unknown unknown => exact ⟨A, _, .refl A _, flaw_of_unexpectedKeyword hc only unknown⟩
  | @argumentCount o keyword length =>
    subst keyword
    exact ⟨A, _, .refl A _, .argumentCount hc length⟩
  | @undecided p q x err shared hp hq length hx chosen =>
    have keyword : p.keyword = head := (shared p).mpr (.inl rfl)
    have stands : Stands A (.node p.keyword es) (due c p.keyword es 0) x :=
      .argument hc length hx (Operator.firstCategory?_eq_some_iff.mp hp) (.refl _ x)
    rw [keyword] at stands
    refine ⟨_, x, stands, ?_⟩
    obtain ⟨name, args⟩ := x
    rcases setCategory_eq_error chosen with ⟨stem, kind⟩ | ⟨d, stem, notConcept, notRole, kind⟩
    · rw [kind]
      refine .unknownHead (fun o ho => ?_) fun d stem' => ?_
      · cases stem.symm.trans (Operator.ofKeyword?_of_keyword_eq ho)
      · cases stem.symm.trans stem'
    · rw [kind]
      refine .otherCategory stem ?_
      rintro ⟨o, ho, hi, -⟩
      rw [← Operator.firstCategory?_eq_some_iff] at hi
      rcases (shared o).mp ho with rfl | rfl
      · cases hp.symm.trans hi
        exact notConcept rfl
      · cases hq.symm.trans hi
        exact notRole rfl

/-! ## Reading the arguments -/

theorem misfits_of_bareName {p : Parameter} (hp : p = .predicate ∨ p = .constant)
    (failed : e.bareName = .error err) : e.Misfits v p err.kind := by
  obtain ⟨head, es⟩ := e
  cases es with
  | nil => cases failed
  | cons x es =>
    cases failed
    rcases hp with rfl | rfl
    · exact .compoundPredicate (List.cons_ne_nil x es)
    · exact .compoundConstant (List.cons_ne_nil x es)

theorem misfits_of_position (failed : e.position = .error err) :
    e.Misfits v .position err.kind := by
  have kind : err.kind = .malformed := by
    unfold Expression.position at failed
    split at failed
    · split at failed
      · cases failed
      · cases failed
        rfl
    · cases failed
      rfl
  rw [kind]
  refine .notAPosition ?_
  rintro s i spelled rfl
  rw [position_leaf spelled] at failed
  cases failed

end Expression

namespace Factory

theorem misfits_of_predicate {name : String} (hv : v.Valid)
    (failed : v.predicate name = .error err) :
    (Expression.leaf name).Misfits v .predicate err.kind := by
  have kind : err.kind = .vocabulary := by
    unfold Vocabulary.predicate at failed
    split at failed <;> cases failed
    rfl
  rw [kind]
  refine .unknownPredicate fun p hp same => ?_
  rw [hv.predicate_eq_ok_iff.mpr ⟨hp, same⟩] at failed
  cases failed

theorem misfits_of_constant {name : String} (hv : v.Valid)
    (failed : v.constant name = .error err) :
    (Expression.leaf name).Misfits v .constant err.kind := by
  have kind : err.kind = .vocabulary := by
    unfold Vocabulary.constant at failed
    split at failed <;> cases failed
    rfl
  rw [kind]
  refine .unknownConstant fun l hl same => ?_
  rw [hv.constant_eq_ok_iff.mpr ⟨hl, same⟩] at failed
  cases failed

/-- Reading the argument that a parameter asks for fails. -/
def Refuses (v : Vocabulary) (x : Expression) (err : Error) : Parameter → Prop
  | .element d => ∃ f g, Reachable v f ∧ (BuildM.ofExpression d x).run f = (.error err, g)
  | p => x.Misfits v p err.kind

/-- If reading arguments fails, reading one of them does. -/
theorem exists_refuses_of_ofArguments (hv : v.Valid) {head : String} : (ps : List Parameter) →
    (es : List Expression) → es.length = ps.length → {f g : Factory} → Reachable v f →
    (BuildM.ofArguments head ps es).run f = (.error err, g) →
    ∃ (i : Nat) (x : Expression) (p : Parameter),
      es[i]? = some x ∧ ps[i]? = some p ∧ Refuses v x err p
  | [], _, _, f, g, _, failed => by
    rw [BuildM.ofArguments] at failed
    cases failed
  | .predicate :: ps, e :: es, length, f, g, hf, failed => by
    rw [BuildM.ofArguments, run_bind_ok run_get] at failed
    rcases run_lift_bind_eq_error failed with hname | ⟨name, hname, failed⟩
    · exact ⟨0, e, .predicate, rfl, rfl, Expression.misfits_of_bareName (.inl rfl) hname⟩
    rcases run_lift_bind_eq_error failed with hp | ⟨p, hp, failed⟩
    · rw [Expression.eq_leaf_of_bareName hname]
      rw [hf.vocabulary] at hp
      exact ⟨0, _, .predicate, rfl, rfl, misfits_of_predicate hv hp⟩
    rcases run_bind_eq_error failed with rest | ⟨_, _, _, failed⟩
    · obtain ⟨i, found⟩ := exists_refuses_of_ofArguments hv ps es (by simpa using length) hf rest
      exact ⟨i + 1, found⟩
    · cases failed
  | .constant :: ps, e :: es, length, f, g, hf, failed => by
    rw [BuildM.ofArguments, run_bind_ok run_get] at failed
    rcases run_lift_bind_eq_error failed with hname | ⟨name, hname, failed⟩
    · exact ⟨0, e, .constant, rfl, rfl, Expression.misfits_of_bareName (.inr rfl) hname⟩
    rcases run_lift_bind_eq_error failed with hk | ⟨k, hk, failed⟩
    · rw [Expression.eq_leaf_of_bareName hname]
      rw [hf.vocabulary] at hk
      exact ⟨0, _, .constant, rfl, rfl, misfits_of_constant hv hk⟩
    rcases run_bind_eq_error failed with rest | ⟨_, _, _, failed⟩
    · obtain ⟨i, found⟩ := exists_refuses_of_ofArguments hv ps es (by simpa using length) hf rest
      exact ⟨i + 1, found⟩
    · cases failed
  | .position :: ps, e :: es, length, f, g, hf, failed => by
    rw [BuildM.ofArguments] at failed
    rcases run_lift_bind_eq_error failed with hi | ⟨i, hi, failed⟩
    · exact ⟨0, e, .position, rfl, rfl, Expression.misfits_of_position hi⟩
    rcases run_bind_eq_error failed with rest | ⟨_, _, _, failed⟩
    · obtain ⟨i, found⟩ := exists_refuses_of_ofArguments hv ps es (by simpa using length) hf rest
      exact ⟨i + 1, found⟩
    · cases failed
  | .element d :: ps, e :: es, length, f, g, hf, failed => by
    rw [BuildM.ofArguments] at failed
    rcases run_bind_eq_error failed with hx | ⟨x, f', hx, failed⟩
    · exact ⟨0, e, .element d, rfl, rfl, f, g, hf, hx⟩
    have calls : f.Calls f' := (calls_ofExpression d e).rel hx
    rcases run_bind_eq_error failed with rest | ⟨_, _, _, failed⟩
    · obtain ⟨i, found⟩ :=
        exists_refuses_of_ofArguments hv ps es (by simpa using length) (hf.trans calls) rest
      exact ⟨i + 1, found⟩
    · cases failed

/-! ## Forming the head -/

/-- If the head is refused after its arguments were read, a position is out of range. -/
theorem exceeds_of_make (hv : v.Valid) {o : Operator c} {ts : Args Term o.signature}
    {hs : Args Handle o.signature} (hf : Reachable v f) (hts : Expression.DescribeAll v es ts)
    (formed : ts.Rel (fun t x => Formed v t f x) hs)
    (failed : (BuildM.make ⟨o, hs⟩).run f = (.error err, g)) :
    Expression.Exceeds v o es err.kind := by
  obtain ⟨failed, -⟩ := make_eq_error failed
  have names := hts.checkNames_eq hv
  rw [formed.checkNames_eq, Args.checkNames_eq_ok_iff] at names
  rcases prepare_cases f ⟨o, hs⟩ with ⟨_, failed', kind, wrong⟩ | ⟨_, failed', kind, wrong⟩ |
    ⟨_, prepared, -⟩
  · cases failed.symm.trans failed'
    rw [hf.vocabulary] at wrong
    rw [kind]
    cases wrong with
    | predicate hp other => exact absurd (names.1 _ hp) other
    | constant hk other => exact absurd (names.2 _ hk) other
    | conceptPosition le =>
      obtain ⟨_, rfl, rest⟩ := formed.of_predicate
      obtain ⟨_, rfl, last⟩ := rest.of_position
      cases hts with
      | predicate hp hts =>
        cases hts with
        | position hi hts =>
          cases last
          cases hts
          exact .conceptPosition hp hi le
    | rolePosition le =>
      obtain ⟨_, rfl, rest⟩ := formed.of_predicate
      obtain ⟨_, rfl, rest'⟩ := rest.of_position
      obtain ⟨_, rfl, last⟩ := rest'.of_position
      cases hts with
      | predicate hp hts =>
        cases hts with
        | position hi hts =>
          cases hts with
          | position hj hts =>
            cases last
            cases hts
            exact .rolePosition hp hi hj le
    | nullary ne =>
      obtain ⟨_, rfl, last⟩ := formed.of_predicate
      cases hts with
      | predicate hp hts =>
        cases last
        cases hts
        exact .nullary hp ne
  · cases failed.symm.trans failed'
    rw [kind]
    cases wrong with
    | operand hx le =>
      have stored : hs.All fun {d} x => x.index < f.count d := formed.all_right fun formed =>
        exists_get?_iff.mp (formed.exists_entry.imp fun _ => And.left)
      exact absurd le (Nat.not_le.mpr (Node.index_lt_of_mem_operands (n := ⟨o, hs⟩) stored hx))
    | coordinate lt =>
      cases formed with
      | element _ rest =>
        obtain ⟨_, rfl, last⟩ := rest.of_position
        cases hts with
        | element _ hts =>
          cases hts with
          | position hi hts =>
            cases last
            cases hts
            exact .coordinate hi lt
  · cases failed.symm.trans prepared

/-! ## Reading the expression -/

/-- If reading an expression fails where an element of its category is due, and the head cannot be
taken for one of another category that is due, then something is wrong with a part. -/
theorem flaw_of_ofExpression (hv : v.Valid) {c : Category} {A : Set Category} : (e : Expression) →
    c ∈ A → (∀ d ∈ A, Category.ofKeyword? e.name = some d → d = c) → {f g : Factory} →
    Reachable v f → (BuildM.ofExpression c e).run f = (.error err, g) →
    ∃ B x, e.Stands A B x ∧ x.Flaw v B err.kind
  | .node head es, hc, only, f, g, hf, failed => by
    rw [BuildM.ofExpression] at failed
    rcases run_lift_bind_eq_error failed with refused | ⟨o, read, failed⟩
    · exact Expression.flaw_of_ofHead hc only refused
    obtain ⟨rfl, length⟩ := Operator.ofHead_eq_ok read
    rcases run_bind_eq_error failed with refused | ⟨hs, f', hargs, failed⟩
    · obtain ⟨i, x, p, hx, hi, refused⟩ :=
        exists_refuses_of_ofArguments hv o.signature es length hf refused
      cases p with
      | element d =>
        obtain ⟨f', g', hf', refused⟩ := refused
        have smaller := List.sizeOf_lt_of_mem (List.mem_of_getElem? hx)
        obtain ⟨due, only⟩ := Operator.mem_due_of_ofHead read hx hi
        obtain ⟨B, y, stands, flaw⟩ := flaw_of_ofExpression hv x due only hf' refused
        exact ⟨B, y, .argument hc length hx hi stands, flaw⟩
      | predicate | constant | position => exact ⟨A, _, .refl A _, .argument hc hx hi refused⟩
    · obtain ⟨ts, hts, formed⟩ := describeAll_of_ofArguments hv o.signature es length hf hargs
      have calls := (calls_ofArguments o.keyword o.signature es).rel hargs
      have exceeds := exceeds_of_make hv (hf.trans calls) hts formed failed
      exact ⟨A, _, .refl A _, .position hc exceeds⟩

/-- **Why a description is refused.** In a factory over `v`, reading an expression fails if and only
if something is wrong with a part that stands where an element is due. The kind of the error is that
of something that is wrong; it is never that of a state over another vocabulary. -/
theorem flaw_of_failure (hv : v.Built) (hf : Reachable v f) (c : Category) (e : Expression) :
    ((∃ err, ((BuildM.ofExpression c e).run f).1 = .error err) ↔
      ∃ B x k, e.Stands {c} B x ∧ x.Flaw v B k) ∧
    ∀ err, ((BuildM.ofExpression c e).run f).1 = .error err →
      err.kind ≠ .mismatch ∧ ∃ B x, e.Stands {c} B x ∧ x.Flaw v B err.kind := by
  have caused : ∀ err, ((BuildM.ofExpression c e).run f).1 = .error err →
      ∃ B x, e.Stands {c} B x ∧ x.Flaw v B err.kind :=
    fun err failed => flaw_of_ofExpression hv.valid e rfl (fun _ hd _ => hd) hf
      (Prod.ext failed rfl)
  refine ⟨⟨?_, ?_⟩, fun err failed => ?_⟩
  · rintro ⟨err, failed⟩
    obtain ⟨B, x, stands, flaw⟩ := caused err failed
    exact ⟨B, x, err.kind, stands, flaw⟩
  · rintro ⟨B, x, k, stands, flaw⟩
    cases hrun : ((BuildM.ofExpression c e).run f).1 with
    | error err => exact ⟨err, rfl⟩
    | ok h =>
      obtain ⟨t, ht, -⟩ := describes_of_ofExpression hv.valid e hf (Prod.ext hrun rfl)
      obtain ⟨d, hd, u, hu, -⟩ := stands.exists_describes (P := fun _ => True)
        (fun _ => Args.all_of_forall (fun _ => trivial) _) rfl ht trivial
      exact absurd hu (flaw.not_describes hv.valid hd)
  · obtain ⟨B, x, stands, flaw⟩ := caused err failed
    exact ⟨flaw.kind_ne_mismatch, B, x, stands, flaw⟩

/-- The negation of a role is refused as a matter of the vocabulary. -/
theorem flaw_of_failure_not :
    let e : Expression := .node "c_not" [.leaf "r_top"]
    let v : Vocabulary := .empty 0
    ∃ err, ((BuildM.ofExpression .concept e).run (empty v)).1 = .error err ∧
      err.kind = .vocabulary ∧ ∃ B x, e.Stands {.concept} B x ∧ x.Flaw v B .vocabulary := by
  intro e v
  have failed : ((BuildM.ofExpression .concept e).run (empty v)).1 =
      .error (.wrongCategory .concept "r_top" .role) := rfl
  obtain ⟨-, caused⟩ := flaw_of_failure (v := v) (.empty 0) .refl .concept e
  exact ⟨_, failed, rfl, (caused _ failed).2⟩

end Factory

end DescLogic
