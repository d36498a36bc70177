import DescLogic.Proofs.Factory.Reachable
import DescLogic.Proofs.Readable
import DescLogic.Proofs.Semantics.Equality
/-!
# Handles and expressions

`Formed v t g h` says that the expression `t` was formed operand by operand in a reachable factory,
with other calls before, between and after, that the factory is `g` now and that the last call gave
the handle `h`.

* `Formed.spells`: `h` then leads to the element whose text is that of the canonical form of `t`.
* `exists_formed`: every expression that fits the vocabulary can be formed in every reachable
  factory.
* `handle_eq_iff`: two expressions have the same handle exactly if their canonical texts are the
  same. Handles stand for expressions up to exchanging operands if no two expressions clash in
  their text, and only then; names without closing parentheses do not clash.
* `exists_clash`: there are names that clash.
-/

namespace DescLogic

open Factory

variable {c : Category} {v : Vocabulary} {f g : Factory} {h h₁ h₂ : Handle c} {t t₁ t₂ : Term c}

namespace Factory

/-- Forming the node at the head of an expression, where `n` says how its operands were formed. -/
def FormedNode (v : Vocabulary) {c : Category} (n : Node (fun c => Factory → Handle c → Prop) c)
    (g : Factory) (h : Handle c) : Prop :=
  ∃ f hs f', Reachable v f ∧ n.args.Rel (fun formed x => formed f x) hs ∧
    (BuildM.make ⟨n.operator, hs⟩).run f = (.ok h, f') ∧ f'.Calls g

/-- The expression was formed operand by operand, with other calls in between, and the call that
formed its head gave `h`. -/
def Formed (v : Vocabulary) {c : Category} (t : Term c) : Factory → Handle c → Prop :=
  t.fold (FormedNode v)

theorem formed_mk {o : Operator c} {ts : Args Term o.signature} :
    Formed v (.mk o ts) g h ↔
      ∃ f hs f', Reachable v f ∧ ts.Rel (fun t x => Formed v t f x) hs ∧
        (BuildM.make ⟨o, hs⟩).run f = (.ok h, f') ∧ f'.Calls g := by
  simp only [Formed, Term.fold_mk, FormedNode, Args.rel_map_left]

/-- What was formed stays formed. -/
theorem Formed.calls (ht : Formed v t f h) (hfg : f.Calls g) : Formed v t g h := by
  cases t with
  | mk o ts =>
    obtain ⟨f₀, hs, f₁, hf₀, hts, made, calls⟩ := formed_mk.mp ht
    exact formed_mk.mpr ⟨f₀, hs, f₁, hf₀, hts, made, calls.trans hfg⟩

theorem calls_make {n : Node Handle c} (made : (BuildM.make n).run f = (.ok h, g)) : f.Calls g := by
  have call := Call.make (f := f) n
  rw [made] at call
  exact .single call

theorem checks_of_make {n : Node Handle c} (made : (BuildM.make n).run f = (.ok h, g)) :
    n.args.checkNames f.vocabulary = .ok () ∧ n.checkPositions = .ok () := by
  obtain ⟨e, he, -⟩ := make_eq_ok made
  obtain ⟨names, positions, -⟩ := prepare_eq_ok_iff.mp he
  exact ⟨names, positions⟩

/-- The handle of an expression leads to the element whose text is that of its canonical form. -/
theorem Formed.spells (ht : Formed v t g h) :
    Reachable v g ∧ t.Fits v ∧ ∃ t', g.Spells h t' ∧ t'.text = t.canonText := by
  induction t using Term.induction generalizing g with
  | mk o ts ih =>
    obtain ⟨f, hs, f', hf, hts, made, calls⟩ := formed_mk.mp ht
    have operands := hts.imp_of_all ih fun ih ht => ih ht
    have reached : Reachable v f' := Relation.ReflTransGen.trans hf (calls_make made)
    refine ⟨Relation.ReflTransGen.trans reached calls, ?_, ?_⟩
    · obtain ⟨names, positions⟩ := checks_of_make made
      rw [hf.vocabulary] at names
      refine .mk ?_ ?_ (operands.all_left fun ht => ht.2.1)
      · rw [operands.checkNames_eq]
        exact names
      · rw [Node.checkPositions_eq operands]
        exact positions
    · have between := operands.imp fun {_ t x} ht => ht.2.2
      obtain ⟨us, hus, texts⟩ := (Args.Rel.symm between).exists_between
      have same : us.map Term.text = (ts.map Term.canonText : Args Term.Texts _) :=
        Args.rel_eq_iff.mp texts
      obtain ⟨t', ht', text⟩ := hf.valid.spells_make hus made
      refine ⟨t', (Calls.grows calls).extends.spells ht', text.trans ?_⟩
      have canonical : us.map Term.canonText = (us.map Term.text : Args Term.Texts _) := by
        refine Args.map_congr (hus.all_right fun {_ x u} hu => ?_)
        rw [← Term.text_canon, hf.valid.canon_eq hu]
      show (Term.ofNode ⟨o, us⟩).canonText = (Term.ofNode ⟨o, ts⟩).canonText
      rw [Term.canonText_ofNode, Term.canonText_ofNode, Node.map, Node.map, canonical, same]

/-- A node whose operands were formed is formed if its names and positions fit. -/
theorem exists_formed_mk {o : Operator c} {ts : Args Term o.signature}
    {hs : Args Handle o.signature} (hf : Reachable v f)
    (hts : ts.Rel (fun t x => Formed v t f x) hs) (names : ts.checkNames v = .ok ())
    (positions : (⟨o, ts⟩ : Node Term c).checkPositions = .ok ()) :
    ∃ h g, (BuildM.make ⟨o, hs⟩).run f = (.ok h, g) ∧ Formed v (.mk o ts) g h := by
  have spelled : hs.All fun x => ∃ u, f.Spells x u := by
    refine hts.all_right fun {_ t x} formed => ?_
    obtain ⟨-, -, u, hu, -⟩ := formed.spells
    exact ⟨u, hu⟩
  obtain ⟨us, hus⟩ := Args.exists_rel spelled
  rw [← hf.vocabulary, hts.checkNames_eq] at names
  rw [Node.checkPositions_eq hts] at positions
  obtain ⟨h, g, made⟩ := exists_make (n := ⟨o, hs⟩) hus names positions
  exact ⟨h, g, made, formed_mk.mpr ⟨f, hs, g, hf, hts, made, .refl⟩⟩

/-- Operands that can be formed in every reachable factory can be formed one after the other. -/
theorem exists_formed_args {ps : List Parameter} {ts : Args Term ps}
    (hts : ts.All fun t => ∀ {f}, Reachable v f → ∃ h g, f.Calls g ∧ Formed v t g h)
    (hf : Reachable v f) : ∃ hs g, f.Calls g ∧ ts.Rel (fun t x => Formed v t g x) hs := by
  induction hts generalizing f with
  | nil => exact ⟨.nil, f, .refl, .nil⟩
  | predicate p _ ih =>
    obtain ⟨hs, g, calls, rel⟩ := ih hf
    exact ⟨_, g, calls, .predicate p rel⟩
  | constant k _ ih =>
    obtain ⟨hs, g, calls, rel⟩ := ih hf
    exact ⟨_, g, calls, .constant k rel⟩
  | position i _ ih =>
    obtain ⟨hs, g, calls, rel⟩ := ih hf
    exact ⟨_, g, calls, .position i rel⟩
  | element ht _ ih =>
    obtain ⟨x, f', calls, formed⟩ := ht hf
    obtain ⟨hs, g, calls', rel⟩ := ih (Relation.ReflTransGen.trans hf calls)
    exact ⟨_, g, calls.trans calls', .element (formed.calls calls') rel⟩

/-- Every expression that fits the vocabulary can be formed in every reachable factory. -/
theorem exists_formed (ht : t.Fits v) (hf : Reachable v f) :
    ∃ h g, f.Calls g ∧ Formed v t g h := by
  induction t using Term.induction generalizing f with
  | mk o ts ih =>
    cases ht with
    | mk names positions operands =>
      have formable : ts.All fun t =>
          ∀ {f}, Reachable v f → ∃ h g, f.Calls g ∧ Formed v t g h :=
        (ih.and operands).imp fun h _ hf => h.1 h.2 hf
      obtain ⟨hs, f', calls, hts⟩ := exists_formed_args formable hf
      obtain ⟨h, g, made, formed⟩ := exists_formed_mk (hf.trans calls) hts names positions
      exact ⟨h, g, calls.trans (calls_make made), formed⟩

end Factory

/-- No two expressions have the same canonical text unless they are equal up to exchanging
operands. -/
def Vocabulary.Unambiguous (v : Vocabulary) : Prop :=
  ∀ {c : Category} {t₁ t₂ : Term c}, t₁.Fits v → t₂.Fits v → t₁.canonText = t₂.canonText →
    t₁.Exchange t₂

theorem Vocabulary.Readable.unambiguous (readable : v.Readable) (hv : v.Valid) :
    v.Unambiguous := by
  intro c t₁ t₂ ht₁ ht₂ text
  have same : t₁.canon = t₂.canon := by
    refine Term.text_inj hv readable ht₁.canon ht₂.canon ?_
    rw [Term.text_canon, Term.text_canon, text]
  have there := t₁.exchange_canon
  rw [same] at there
  exact there.trans t₂.exchange_canon.symm

namespace Factory

/-- Handles are the same exactly if the canonical texts are. -/
theorem Formed.eq_iff (ht₁ : Formed v t₁ g h₁) (ht₂ : Formed v t₂ g h₂) :
    h₁ = h₂ ↔ t₁.canonText = t₂.canonText := by
  obtain ⟨hg, -, u₁, hu₁, text₁⟩ := ht₁.spells
  obtain ⟨-, -, u₂, hu₂, text₂⟩ := ht₂.spells
  constructor
  · rintro rfl
    rw [← text₁, ← text₂, hu₁.unique hu₂]
  · intro text
    refine hg.valid.eq_of_text_eq hu₁ hu₂ ?_
    rw [text₁, text₂, text]

/-- **Handles and expressions.** Two expressions formed in a factory have the same handle exactly
if their canonical texts are the same, so expressions equal up to exchanging operands have the same
handle. The converse holds for all expressions of a vocabulary exactly if the vocabulary is
unambiguous, and it is if no name holds a closing parenthesis. -/
theorem handle_eq_iff (hv : v.Built) :
    (∀ {c : Category} {g : Factory} {h₁ h₂ : Handle c} {t₁ t₂ : Term c},
      Formed v t₁ g h₁ → Formed v t₂ g h₂ →
        (h₁ = h₂ ↔ t₁.canonText = t₂.canonText) ∧ (t₁.Exchange t₂ → h₁ = h₂)) ∧
    ((∀ {c : Category} {g : Factory} {h₁ h₂ : Handle c} {t₁ t₂ : Term c},
      Formed v t₁ g h₁ → Formed v t₂ g h₂ → (h₁ = h₂ ↔ t₁.Exchange t₂)) ↔ v.Unambiguous) ∧
    (v.Readable → v.Unambiguous) := by
  refine ⟨?_, ⟨?_, ?_⟩, fun readable => readable.unambiguous hv.valid⟩
  · intro c g h₁ h₂ t₁ t₂ ht₁ ht₂
    exact ⟨ht₁.eq_iff ht₂, fun exchange => (ht₁.eq_iff ht₂).mpr exchange.canonText_eq⟩
  · intro identity c t₁ t₂ fits₁ fits₂ text
    obtain ⟨h₁, f, calls, ht₁⟩ := exists_formed fits₁ (f := empty v) .refl
    obtain ⟨h₂, g, calls', ht₂⟩ := exists_formed fits₂ calls
    have ht₁ := ht₁.calls calls'
    exact (identity ht₁ ht₂).mp ((ht₁.eq_iff ht₂).mpr text)
  · intro unambiguous c g h₁ h₂ t₁ t₂ ht₁ ht₂
    rw [ht₁.eq_iff ht₂]
    refine ⟨?_, Term.Exchange.canonText_eq⟩
    exact unambiguous ht₁.spells.2.1 ht₂.spells.2.1

end Factory

/-! ## Expressions over constants -/

/-- The expression that stands for the object a constant names. -/
def Term.oneOf (k : Constant) : Term .concept := .mk .oneOf (.constant k .nil)

theorem Term.fits_oneOf {k : Constant} (hk : v.ownsConstant k = true) : (Term.oneOf k).Fits v :=
  .mk (Args.checkNames_constant.mpr ⟨hk, rfl⟩) rfl (.constant k .nil)

namespace Factory

/-- Operands of a conjunction may be exchanged. -/
theorem handle_eq_iff_and :
    let a : Constant := ⟨"a", 0⟩
    let b : Constant := ⟨"b", 1⟩
    let v : Vocabulary := ⟨0, #[], #[a, b]⟩
    let t₁ : Term .concept := .mk .andConcept (.element (.oneOf a) (.element (.oneOf b) .nil))
    let t₂ : Term .concept := .mk .andConcept (.element (.oneOf b) (.element (.oneOf a) .nil))
    v.Built ∧ ∃ g h, Formed v t₁ g h ∧ Formed v t₂ g h := by
  intro a b v t₁ t₂
  have added : (Vocabulary.empty 0).addConstant "a" = .ok (a, ⟨0, #[], #[a]⟩) := by decide +kernel
  have added' : Vocabulary.addConstant ⟨0, #[], #[a]⟩ "b" = .ok (b, v) := by decide +kernel
  have hv : v.Built := .addConstant (.addConstant (.empty 0) added) added'
  have fits_a : (Term.oneOf a).Fits v := Term.fits_oneOf (by decide +kernel)
  have fits_b : (Term.oneOf b).Fits v := Term.fits_oneOf (by decide +kernel)
  have fits₁ : t₁.Fits v := .mk rfl rfl (.element fits_a (.element fits_b .nil))
  have fits₂ : t₂.Fits v := .mk rfl rfl (.element fits_b (.element fits_a .nil))
  obtain ⟨h₁, f, calls, ht₁⟩ := exists_formed fits₁ (f := empty v) .refl
  obtain ⟨h₂, g, calls', ht₂⟩ := exists_formed fits₂ calls
  have ht₁ := ht₁.calls calls'
  have same : h₁ = h₂ := ((handle_eq_iff hv).1 ht₁ ht₂).2 (.swap t₁.node)
  exact ⟨hv, g, h₁, ht₁, same ▸ ht₂⟩

end Factory

/-! ## Names that clash -/

namespace Factory

/-- The names of two constants are made of parts of texts, and two expressions that stand for
different sets have the same handle. -/
theorem exists_clash :
    let a : Constant := ⟨"a", 0⟩
    let b : Constant := ⟨"b),c_one_of(c", 1⟩
    let a' : Constant := ⟨"a),c_one_of(b", 2⟩
    let b' : Constant := ⟨"c", 3⟩
    let v : Vocabulary := ⟨0, #[], #[a, b, a', b']⟩
    let t₁ : Term .concept := .mk .diffConcept (.element (.oneOf a) (.element (.oneOf b) .nil))
    let t₂ : Term .concept := .mk .diffConcept (.element (.oneOf a') (.element (.oneOf b') .nil))
    v.Built ∧ (∃ g h, Formed v t₁ g h ∧ Formed v t₂ g h) ∧ ¬ t₁.Exchange t₂ := by
  intro a b a' b' v t₁ t₂
  have added₁ : (Vocabulary.empty 0).addConstant a.name = .ok (a, ⟨0, #[], #[a]⟩) := by
    decide +kernel
  have added₂ : Vocabulary.addConstant ⟨0, #[], #[a]⟩ b.name = .ok (b, ⟨0, #[], #[a, b]⟩) := by
    decide +kernel
  have added₃ : Vocabulary.addConstant ⟨0, #[], #[a, b]⟩ a'.name =
      .ok (a', ⟨0, #[], #[a, b, a']⟩) := by
    decide +kernel
  have added₄ : Vocabulary.addConstant ⟨0, #[], #[a, b, a']⟩ b'.name = .ok (b', v) := by
    decide +kernel
  have hv : v.Built :=
    .addConstant (.addConstant (.addConstant (.addConstant (.empty 0) added₁) added₂) added₃) added₄
  have fits₁ : t₁.Fits v :=
    .mk rfl rfl (.element (Term.fits_oneOf (by decide +kernel))
      (.element (Term.fits_oneOf (by decide +kernel)) .nil))
  have fits₂ : t₂.Fits v :=
    .mk rfl rfl (.element (Term.fits_oneOf (by decide +kernel))
      (.element (Term.fits_oneOf (by decide +kernel)) .nil))
  have clash : t₁.canonText = t₂.canonText := by decide +kernel
  refine ⟨hv, ?_, ?_⟩
  · obtain ⟨h₁, f, calls, ht₁⟩ := exists_formed fits₁ (f := empty v) .refl
    obtain ⟨h₂, g, calls', ht₂⟩ := exists_formed fits₂ calls
    have ht₁ := ht₁.calls calls'
    have same : h₁ = h₂ := (ht₁.eq_iff ht₂).mpr clash
    exact ⟨g, h₁, ht₁, same ▸ ht₂⟩
  · intro exchange
    -- In a state with the object `a` alone, `a` is a member of the first set only.
    let s : State := ⟨0, ⟨v, #["a"], #[]⟩, []⟩
    have named : #["a"][0]? = some a.name ∧ #["a"][0]? ≠ some b.name := by decide
    have first : 0 ∈ t₁.ideal s := named
    rw [exchange.ideal_eq s] at first
    have other : #["a"][0]? = some a'.name := first.1
    exact absurd other (by decide)

end Factory

end DescLogic
