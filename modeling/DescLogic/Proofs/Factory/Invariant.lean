import DescLogic.Proofs.ByteOrder
import DescLogic.Proofs.Factory.Reachable
/-!
# What holds of a factory at any time

Operations form nodes, read descriptions given as texts or as expressions, and run the generator.
After any list of them, successful or not, a factory is sound: texts and elements find each other,
and each element is composed of the stored elements that are its operands (`Factory.Sound`).

* `Entry.Composed`: what a stored element owes to its node and to its operands. Operands are less
  complex than the element, so no element is an operand of itself, however far down.
* `sound_of_operations`: a factory stays sound, and what it stores stays as it is and where it is.
-/

namespace DescLogic

variable {χ : Category → Type} {ps : List Parameter} {c : Category}

/-! ## The summary of a node, spelled out -/

/-- The predicates among the arguments. -/
def Args.predicates : {ps : List Parameter} → Args χ ps → List Predicate
  | _, nil => []
  | _, predicate p rest => p :: rest.predicates
  | _, constant _ rest | _, position _ rest | _, element _ rest => rest.predicates

theorem Args.predicatesStatic_iff {a : Args χ ps} :
    a.predicatesStatic = true ↔ ∀ p ∈ a.predicates, p.isStatic = true := by
  induction a <;> simp_all [predicatesStatic, predicates]

theorem Args.Rel.predicates_eq {ψ : Category → Type} {R : {c : Category} → χ c → ψ c → Prop}
    {a : Args χ ps} {b : Args ψ ps} (h : a.Rel R b) : a.predicates = b.predicates := by
  induction h <;> simp_all [predicates]

theorem Args.map_elements {α β : Type} {a : Args χ ps} {f : α → β}
    {e : {c : Category} → χ c → α} : (a.elements e).map f = a.elements fun x => f (e x) := by
  induction a <;> simp_all [elements]

theorem foldr_add_eq {α : Type} (f : α → Nat) (n : Nat) (l : List α) :
    l.foldr (fun x m => f x + m) n = n + (l.map f).sum := by
  induction l with
  | nil => rfl
  | cons x l ih =>
    rw [List.foldr_cons, List.map_cons, List.sum_cons, ih]
    omega

namespace Node

variable {infoOf : {d : Category} → χ d → Summary} {n : Node χ c}

theorem complexity_summary :
    (n.summary infoOf).complexity = 1 + (n.args.elements fun x => (infoOf x).complexity).sum := by
  rw [← Args.map_elements (e := infoOf)]
  exact foldr_add_eq Summary.complexity 1 _

theorem score_summary :
    (n.summary infoOf).score =
      n.operator.cost + (n.args.elements fun x => (infoOf x).score).sum := by
  rw [← Args.map_elements (e := infoOf)]
  exact foldr_add_eq Summary.score n.operator.cost _

theorem isStatic_summary_iff :
    (n.summary infoOf).isStatic = true ↔
      (∀ p ∈ n.args.predicates, p.isStatic = true) ∧
        n.args.All fun x => (infoOf x).isStatic = true := by
  have operands : (n.args.All fun x => (infoOf x).isStatic = true) ↔
      (n.args.elements infoOf).all Summary.isStatic = true :=
    (Args.all_iff_elements (p := fun s : Summary => s.isStatic = true)).trans List.all_eq_true.symm
  rw [← Args.predicatesStatic_iff, operands]
  exact Bool.and_eq_true_iff

end Node

/-- `e` is composed of the elements `operands`, which stand in the places of its node. -/
structure Entry.Composed (e : Entry c) (operands : Args Entry e.node.operator.signature) :
    Prop where
  /-- Operands are less complex. -/
  complexity_lt : operands.All fun x => x.summary.complexity < e.summary.complexity
  /-- Operands of commutative operators are in the order of the bytes of their texts. -/
  ordered : (⟨e.node.operator, operands⟩ : Node Entry c).Ordered fun x y =>
    decide (Text.bytes x.summary.text ≤ Text.bytes y.summary.text)
  /-- The text is the keyword applied to the texts of the arguments. -/
  text_eq : e.summary.text =
    Text.applied e.node.operator.keyword (operands.texts fun x => x.summary.text)
  /-- The complexity is one more than those of the operands together. -/
  complexity_eq : e.summary.complexity =
    1 + (operands.elements fun x => x.summary.complexity).sum
  /-- The element is static if its predicates and its operands are. -/
  isStatic_iff : e.summary.isStatic = true ↔
    (∀ p ∈ e.node.args.predicates, p.isStatic = true) ∧
      operands.All fun x => x.summary.isStatic = true
  /-- The score is the operator's cost and the scores of the operands together. -/
  score_eq : e.summary.score =
    e.node.operator.cost + (operands.elements fun x => x.summary.score).sum

namespace Factory

variable {v : Vocabulary} {f g : Factory}

/-! ## Operations -/

/-- `g` is what an operation leaves of the factory `f`, whether it succeeds or not. -/
inductive Operation (f : Factory) : Factory → Prop where
  /-- Forming a node, reading a text, or a run of the generator. -/
  | call {g : Factory} : f.Call g → Operation f g
  /-- Reading an expression. -/
  | describe (c : Category) (e : Expression) :
      Operation f ((BuildM.ofExpression c e).run f).2

/-- `g` is what a list of operations leaves of the factory `f`. -/
def Operations (f g : Factory) : Prop := Relation.ReflTransGen Operation f g

/-- Operations lead to no other factories than calls do. -/
theorem operations_iff_calls : f.Operations g ↔ f.Calls g := by
  constructor
  · intro h
    induction h with
    | refl => exact .refl
    | tail _ operation ih =>
      cases operation with
      | call call => exact ih.tail call
      | describe c e => exact ih.trans (calls_ofExpression c e _)
  · intro h
    exact Relation.ReflTransGen.mono (fun _ _ call => .call call) _ _ h

/-! ## Soundness -/

/-- Texts and elements find each other, and every element is composed of stored ones. -/
structure Sound (f : Factory) : Prop where
  /-- The elements of a category are told apart by their texts. -/
  eq_of_text : ∀ {c : Category} {h h' : Handle c} {e e' : Entry c},
    f.get? h = some e → f.get? h' = some e' → e.summary.text = e'.summary.text → h = h'
  /-- An element is found by its text. -/
  find?_text : ∀ {c : Category} {h : Handle c} {e : Entry c},
    f.get? h = some e → f.find? c e.summary.text = some h
  /-- What is not the text of an element finds nothing. -/
  find?_eq_none : ∀ {c : Category} {s : String},
    (∀ {h : Handle c} {e : Entry c}, f.get? h = some e → e.summary.text ≠ s) → f.find? c s = none
  /-- The operands of an element are stored, and it is composed of them. -/
  composed : ∀ {c : Category} {h : Handle c} {e : Entry c}, f.get? h = some e →
    ∃ operands : Args Entry e.node.operator.signature,
      e.node.args.Rel (fun x e' => f.get? x = some e') operands ∧ e.Composed operands

/-- An element of a valid factory is composed of the stored elements at its operands. -/
theorem Valid.composed (hf : f.Valid) {h : Handle c} {e : Entry c} (he : f.get? h = some e) :
    ∃ operands : Args Entry e.node.operator.signature,
      e.node.args.Rel (fun x e' => f.get? x = some e') operands ∧ e.Composed operands := by
  obtain ⟨m, -, -, known, ordered, rfl⟩ := hf.known_operands he
  have stored : m.args.All fun k => ∃ e', f.get? k.1 = some e' ∧ e'.summary = k.2 :=
    known.imp fun hk => (known_eq_ok_iff.mp hk).2
  obtain ⟨operands, hops⟩ := Args.exists_rel stored
  have summaries : m.map Prod.snd =
      (⟨m.operator, operands⟩ : Node Entry c).map Entry.summary :=
    congrArg (Node.mk m.operator) (Args.rel_eq_iff.mp (hops.imp fun hx => hx.2.symm))
  have summary : m.summary Prod.snd =
      (⟨m.operator, operands⟩ : Node Entry c).summary Entry.summary := by
    have mapped := congrArg (fun n => Node.summary (fun s => s) n) summaries
    simpa only [Node.summary_map] using mapped
  have stored' : (m.args.map Prod.fst).Rel (fun x e' => f.get? x = some e') operands :=
    Args.rel_map_left.mpr (hops.imp And.left)
  refine ⟨operands, stored', ?_⟩
  show Entry.Composed ⟨m.map Prod.fst, m.summary Prod.snd⟩ operands
  rw [summary]
  constructor
  case complexity_lt => exact Node.complexity_lt Entry.summary ⟨m.operator, operands⟩
  case ordered =>
    simp only [Text.bytes_le_iff]
    have sorted := (Node.ordered_map Prod.snd fun s t : Summary => decide (s.text ≤ t.text)).mpr
      ordered
    rw [summaries] at sorted
    exact (Node.ordered_map Entry.summary _).mp sorted
  case text_eq => rfl
  case complexity_eq => exact Node.complexity_summary
  case isStatic_iff =>
    show _ ↔ (∀ p ∈ (m.args.map Prod.fst).predicates, p.isStatic = true) ∧ _
    rw [stored'.predicates_eq]
    exact Node.isStatic_summary_iff
  case score_eq => exact Node.score_summary

theorem Valid.sound (hf : f.Valid) : f.Sound where
  eq_of_text := hf.eq_of_text
  find?_text he := hf.find?_eq_some_iff.mpr ⟨_, he, rfl⟩
  find?_eq_none {c s} absent := by
    cases found : f.find? c s with
    | none => rfl
    | some h =>
      obtain ⟨e, he, text⟩ := hf.find?_eq_some_iff.mp found
      exact absurd text (absent he)
  composed := hf.composed

/-- **Factories at any time.** Whatever operations came before, successful or not, a factory is
over its vocabulary and sound, and all that was stored earlier is still stored at the same
handles. -/
theorem sound_of_operations (before : (empty v).Operations f) (after : f.Operations g) :
    g.vocabulary = v ∧ g.Sound ∧
      ∀ {c : Category} {h : Handle c} {e : Entry c}, f.get? h = some e → g.get? h = some e := by
  have reached : Reachable v f := operations_iff_calls.mp before
  have calls : f.Calls g := operations_iff_calls.mp after
  have reached' : Reachable v g := reached.trans calls
  exact ⟨reached'.vocabulary, reached'.valid.sound, (Calls.grows calls).extends.get?⟩

/-- A description that fails for want of an argument leaves the element formed before it. -/
theorem sound_of_failing_description :
    let v : Vocabulary := .empty 0
    let f := ((BuildM.make ⟨.top, .nil⟩).run (empty v)).2
    let g := ((BuildM.ofExpression .concept (.leaf "c_not")).run f).2
    ((BuildM.ofExpression .concept (.leaf "c_not")).run f).1.isOk = false ∧ g.Sound ∧
      (g.get? (⟨0⟩ : Handle .concept)).map Entry.summary = some ⟨"c_top", 1, true, 1⟩ := by
  intro v f g
  have before : (empty v).Operations f := .single (.call (.make ⟨.top, .nil⟩))
  have after : f.Operations g := .single (.describe .concept (.leaf "c_not"))
  obtain ⟨-, sound, kept⟩ := sound_of_operations before after
  have first : f.get? (⟨0⟩ : Handle .concept) = some ⟨⟨.top, .nil⟩, ⟨"c_top", 1, true, 1⟩⟩ :=
    get?_make_empty rfl
  refine ⟨rfl, sound, ?_⟩
  rw [kept first]
  rfl

end Factory

end DescLogic
