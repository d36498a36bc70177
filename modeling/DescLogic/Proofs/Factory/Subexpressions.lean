import DescLogic.Proofs.Expression.Places
import DescLogic.Proofs.Factory.Preconditions
import DescLogic.Proofs.Factory.ReadBack
/-!
# What reading a description adds to a factory

An expression is read from its arguments up, and what was stored before a failure stays. So reading
adds elements that well-typed parts of the expression describe, and nothing else: parts that stand
where an element of their category is due, less deep than the whole if reading fails.

* `Factory.Adds`: the entries that one factory has more than another are those of parts.
* `adds_subexpressions`: what reading leaves of a factory, whether it succeeds or not.
-/

namespace DescLogic

open Procedure

variable {c d : Category} {v : Vocabulary} {f g : Factory} {e : Expression} {A : Set Category}

namespace Factory

/-- An entry of the factory after an insertion was there before, or it is the one inserted. -/
theorem get?_insert_eq_some {e : Entry c} {h : Handle d} {s : Entry d}
    (hs : (f.insert e).2.get? h = some s) :
    f.get? h = some s ∨ (⟨d, h⟩ : AnyHandle) = ⟨c, (f.insert e).1⟩ := by
  unfold insert at hs ⊢
  cases found : f.find? c e.summary.text with
  | some h' =>
    rw [found] at hs
    exact .inl hs
  | none =>
    rw [found] at hs
    by_cases same : c = d
    · subst same
      by_cases last : h.index = f.count c
      · right
        rw [← last]
      · rw [get?_push_self, if_neg last] at hs
        exact .inl hs
    · rw [get?_push_of_ne same] at hs
      exact .inl hs

/-! ## Entries that are added -/

/-- `g` is what calls leave of the factory `f` over `v`. Every entry that is not in `f` is that of a
well-typed expression among `Q`, which stands where an element of its category is due. -/
def Adds (v : Vocabulary) (Q : Set Category → Expression → Prop) (f g : Factory) : Prop :=
  Reachable v f → f.Calls g ∧ ∀ {d : Category} {h : Handle d} {s : Entry d}, g.get? h = some s →
    f.get? h = some s ∨ ∃ (B : Set Category) (x : Expression) (t : Term d),
      Q B x ∧ d ∈ B ∧ x.Describes v t ∧ s.summary.text = t.canonText

variable {Q Q' : Set Category → Expression → Prop}

instance : IsPreorder Factory (Adds v Q) where
  refl _ _ := ⟨.refl, .inl⟩
  trans f g k hfg hgk hf := by
    obtain ⟨calls, first⟩ := hfg hf
    obtain ⟨calls', second⟩ := hgk (hf.trans calls)
    exact ⟨calls.trans calls', fun hs => (second hs).elim first .inr⟩

theorem Adds.mono (h : f.Adds v Q g) (sub : ∀ B x, Q B x → Q' B x) : f.Adds v Q' g := by
  intro hf
  obtain ⟨calls, added⟩ := h hf
  refine ⟨calls, fun hs => (added hs).imp_right ?_⟩
  rintro ⟨B, x, t, hQ, rest⟩
  exact ⟨B, x, t, sub B x hQ, rest⟩

/-- Forming the head of an expression whose arguments were read adds the element of the whole. -/
theorem adds_make (hv : v.Valid) {f f' : Factory} {n : Node Handle c} {h : Handle c}
    (hrun : (BuildM.ofExpression c e).run f = (.ok h, g)) (hf : Reachable v f)
    (made : (BuildM.make n).run f' = (.ok h, g)) (hc : c ∈ A) : f'.Adds v (e.Stands A) g := by
  intro hf'
  refine ⟨calls_make made, fun {d h' s} hs => ?_⟩
  obtain ⟨prepared, -, inserted⟩ := make_eq_ok made
  have cases_of_insert := get?_insert_eq_some (f := f') (e := prepared) (h := h') (s := s)
  rw [inserted] at cases_of_insert
  refine (cases_of_insert hs).imp_right fun same => ?_
  cases same
  obtain ⟨t, ht, formed⟩ := describes_of_ofExpression hv e hf hrun
  obtain ⟨s', hs', text⟩ := formed.exists_entry
  cases hs.symm.trans hs'
  exact ⟨A, e, t, .refl A e, hc, ht, text⟩

/-- Reading an expression adds parts of it, and parts of its arguments only if it fails. -/
theorem adds_ofExpression (hv : v.Valid) {c : Category} {A : Set Category} : (e : Expression) →
    c ∈ A → {f g : Factory} → {r : Except Error (Handle c)} → Reachable v f →
    (BuildM.ofExpression c e).run f = (r, g) →
    f.Adds v (e.Stands A) g ∧ (r.isOk = false → f.Adds v (fun B x => e.Stands A B x ∧ x ≠ e) g)
  | .node head es, hc, f, g, r, hf, hrun => by
    let proper : Set Category → Expression → Prop := fun B x =>
      Expression.Stands A (.node head es) B x ∧ x ≠ .node head es
    have forget : ∀ {g : Factory}, f.Adds v proper g →
        f.Adds v (Expression.Stands A (.node head es)) g :=
      fun added => added.mono fun _ _ => And.left
    have whole := hrun
    rw [BuildM.ofExpression, run_bind, run_lift] at hrun
    cases read : Operator.ofHead c head es with
    | error err =>
      rw [read] at hrun
      cases hrun
      exact ⟨refl_of _ f, fun _ => refl_of _ f⟩
    | ok o =>
      obtain ⟨rfl, length⟩ := Operator.ofHead_eq_ok read
      have args : Moves (Adds v proper) (BuildM.ofArguments o.keyword o.signature es) := by
        refine moves_ofArguments_of_elements fun {i x d} hx hi f hf => ?_
        have smaller := List.sizeOf_lt_of_mem (List.mem_of_getElem? hx)
        have due := (Operator.mem_due_of_ofHead read hx hi).1
        refine ((adds_ofExpression hv x due hf rfl).1.mono fun B y stands => ?_) hf
        exact ⟨.argument hc length hx hi stands, stands.ne_of_argument hx⟩
      specialize args f
      rw [read] at hrun
      simp only [run_bind] at hrun
      rcases hargs : (BuildM.ofArguments o.keyword o.signature es).run f with ⟨_ | hs, f'⟩ <;>
        rw [hargs] at hrun args
      · cases hrun
        exact ⟨forget args, fun _ => args⟩
      · cases r with
        | ok h => exact ⟨trans_of _ (forget args) (adds_make hv whole hf hrun hc), nofun⟩
        | error err =>
          -- The head was refused after its arguments were read.
          obtain ⟨-, rfl⟩ := make_eq_error hrun
          exact ⟨forget args, fun _ => args⟩

/-! ## What is there afterwards -/

/-- What was formed is described by every part that stands where an element is due. -/
theorem Formed.hasText_of_stands {t : Term c} {h : Handle c} (formed : Formed v t g h)
    (ht : e.Describes v t) {B : Set Category} {x : Expression} (stands : e.Stands {c} B x) :
    ∃ d ∈ B, ∃ u : Term d, x.Describes v u ∧ g.HasText d u.canonText := by
  have operands : ∀ {d : Category} {o : Operator d} {ts : Args Term o.signature},
      (∃ h', Formed v (.mk o ts) g h') → ts.All fun u => ∃ h', Formed v u g h' := by
    rintro d o ts ⟨h', formed'⟩
    obtain ⟨hs, rel⟩ := formed'.operands
    exact rel.all_left fun hu => ⟨_, hu⟩
  obtain ⟨d, hd, u, hu, h', formed'⟩ :=
    stands.exists_describes (P := fun u => ∃ h', Formed v u g h') operands rfl ht ⟨h, formed⟩
  exact ⟨d, hd, u, hu, h', formed'.exists_entry⟩

/-- **What reading adds.** Whether it succeeds or not, reading an expression keeps every entry of a
factory over `v` where it is and as it is. Every entry that is added has the canonical text of what
a well-typed part of the expression describes, one that stands where an element is due, and no two
entries of a category have the same text. The part is not the expression itself if reading fails. If
reading succeeds, every part that stands where an element is due has an entry. -/
theorem adds_subexpressions (hv : v.Built) (hf : Reachable v f) {r : Except Error (Handle c)}
    (hrun : (BuildM.ofExpression c e).run f = (r, g)) :
    f.Extends g ∧
      (∀ {d : Category} {h h' : Handle d} {s s' : Entry d}, g.get? h = some s →
        g.get? h' = some s' → s.summary.text = s'.summary.text → h = h') ∧
      (∀ {d : Category} {h : Handle d} {s : Entry d}, g.get? h = some s → f.get? h = none →
        ∃ (B : Set Category) (x : Expression) (t : Term d), e.Stands {c} B x ∧ d ∈ B ∧
          (r.isOk = false → x ≠ e) ∧ x.Describes v t ∧ s.summary.text = t.canonText) ∧
      (r.isOk = true → ∀ {B : Set Category} {x : Expression}, e.Stands {c} B x →
        ∃ d ∈ B, ∃ t : Term d, x.Describes v t ∧ g.HasText d t.canonText) := by
  have calls : f.Calls g := (calls_ofExpression c e).rel hrun
  have reached : Reachable v g := hf.trans calls
  obtain ⟨added, failed⟩ := adds_ofExpression hv.valid e (A := {c}) rfl hf hrun
  refine ⟨(Calls.grows calls).extends, reached.valid.eq_of_text, ?_, ?_⟩
  · intro d h s hs absent
    have new : ¬ f.get? h = some s := by
      rw [absent]
      exact nofun
    cases r with
    | ok _ =>
      obtain ⟨B, x, t, stands, hd, ht, text⟩ := ((added hf).2 hs).resolve_left new
      exact ⟨B, x, t, stands, hd, nofun, ht, text⟩
    | error _ =>
      obtain ⟨B, x, t, ⟨stands, ne⟩, hd, ht, text⟩ := ((failed rfl hf).2 hs).resolve_left new
      exact ⟨B, x, t, stands, hd, fun _ => ne, ht, text⟩
  · intro ok B x stands
    cases r with
    | error _ => cases ok
    | ok h =>
      obtain ⟨t, ht, formed⟩ := describes_of_ofExpression hv.valid e hf hrun
      exact formed.hasText_of_stands ht stands

/-- A conjunction whose second operand is refused leaves its first operand. -/
theorem adds_subexpressions_and :
    let v : Vocabulary := .empty 0
    let e : Expression := .node "c_and" [.leaf "c_top", .leaf "c_some"]
    let g := ((BuildM.ofExpression .concept e).run (empty v)).2
    ((BuildM.ofExpression .concept e).run (empty v)).1.isOk = false ∧
      (g.get? (⟨0⟩ : Handle .concept)).map (fun s => s.summary.text) = some "c_top" ∧
      ∃ (B : Set Category) (x : Expression) (t : Term .concept),
        e.Stands {.concept} B x ∧ x ≠ e ∧ x.Describes v t ∧ t.canonText = "c_top" := by
  intro v e g
  let top : Entry .concept := ⟨⟨.top, .nil⟩, ⟨"c_top", 1, true, 1⟩⟩
  let f := (empty v).push top
  have made : (BuildM.make ⟨.top, .nil⟩).run (empty v) = (.ok ⟨0⟩, f) := run_make_empty rfl
  have first : (BuildM.ofExpression .concept (.leaf "c_top")).run (empty v) = (.ok ⟨0⟩, f) := by
    have head : Operator.ofHead .concept "c_top" [] = .ok .top := rfl
    rw [Expression.leaf, BuildM.ofExpression, run_lift_bind_ok head]
    exact made
  have second : (BuildM.ofExpression .concept (.leaf "c_some")).run f =
      (.error (.argumentCount "c_some" 2 0), f) := rfl
  have hrun : (BuildM.ofExpression .concept e).run (empty v) =
      (.error (.argumentCount "c_some" 2 0), f) := by
    have head : Operator.ofHead .concept "c_and" [.leaf "c_top", .leaf "c_some"] =
        .ok .andConcept := rfl
    rw [BuildM.ofExpression, run_lift_bind_ok head]
    refine run_bind_error ?_
    show (BuildM.ofArguments "c_and" [.element .concept, .element .concept] _).run _ = _
    rw [BuildM.ofArguments, run_bind_ok first, BuildM.ofArguments]
    exact run_bind_error (run_bind_error second)
  have stored : f.get? (⟨0⟩ : Handle .concept) = some top := by
    rw [get?_push_self]
    rfl
  have left : g = f := congrArg Prod.snd hrun
  obtain ⟨-, -, added, -⟩ := adds_subexpressions (.empty 0) .refl hrun
  obtain ⟨B, x, t, stands, -, ne, ht, text⟩ := added stored get?_empty
  rw [left, hrun, stored]
  exact ⟨rfl, rfl, B, x, t, stands, ne rfl, ht, text.symm⟩

end Factory

end DescLogic
