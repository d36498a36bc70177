import DescLogic.Proofs.Factory.Invariant
/-!
# When a node is formed, and what this changes

Forming a node asks for two things: its operands are stored and coordinates of pairs are the first
or the second (else the node `Overreaches`), and its predicates and constants are entries of the
vocabulary that fit their places (else it `Misnames`). Nodes with operands name nothing of the
vocabulary, so at most one of the two goes wrong.

* `Factory.prepare_cases`: one of the two went wrong and the kind of the error tells which, or the
  node is prepared.
* `Factory.make_atomic`: forming a node fails exactly so, and then leaves the factory as it was;
  otherwise it appends one entry, unless there is one with the text that is asked for.
-/

namespace DescLogic

variable {χ : Category → Type} {ps : List Parameter} {c : Category} {v : Vocabulary} {f g : Factory}

/-! ## Names -/

namespace Args

/-- The constants among the arguments. -/
def constants : {ps : List Parameter} → Args χ ps → List Constant
  | _, nil => []
  | _, constant k rest => k :: rest.constants
  | _, predicate _ rest | _, position _ rest | _, element _ rest => rest.constants

variable {a : Args χ ps}

theorem checkNames_eq_ok_iff :
    a.checkNames v = .ok () ↔
      (∀ p ∈ a.predicates, v.predicates[p.index]? = some p) ∧
        ∀ k ∈ a.constants, v.constants[k.index]? = some k := by
  induction a with
  | nil => simp [checkNames, predicates, constants]
  | predicate p rest ih =>
    rw [checkNames_predicate, ih, Vocabulary.ownsPredicate, beq_iff_eq]
    simp [predicates, constants, and_assoc]
  | constant k rest ih =>
    rw [checkNames_constant, ih, Vocabulary.ownsConstant, beq_iff_eq]
    simp [predicates, constants, and_left_comm]
  | position _ _ ih | element _ _ ih => exact ih

/-- A name that is refused is a matter of the vocabulary. -/
theorem kind_of_checkNames {e : Error} (h : a.checkNames v = .error e) : e.kind = .vocabulary := by
  induction a with
  | nil => cases h
  | predicate p rest ih =>
    rw [checkNames] at h
    split at h
    · exact ih h
    · cases h
      rfl
  | constant k rest ih =>
    rw [checkNames] at h
    split at h
    · exact ih h
    · cases h
      rfl
  | position _ _ ih | element _ _ ih => exact ih h

/-- If replacing the elements fails, replacing one of them does. -/
theorem exists_of_mapM_eq_error {ε : Type} {ψ : Category → Type}
    {r : {c : Category} → χ c → Except ε (ψ c)} {e : ε} (h : a.mapM r = .error e) :
    ∃ x ∈ a.elements fun {d} y => (⟨d, y⟩ : (d : Category) × χ d), r x.2 = .error e := by
  induction a with
  | nil => cases h
  | predicate _ rest ih | constant _ rest ih | position _ rest ih =>
    cases hr : rest.mapM r with
    | error e' =>
      simp only [mapM, hr, bind, Except.bind, Except.error.injEq] at h
      exact ih (hr.trans (congrArg _ h))
    | ok b =>
      simp only [mapM, hr, bind, Except.bind, pure, Except.pure, reduceCtorEq] at h
  | @element _ d y rest ih =>
    cases hy : r y with
    | error e' =>
      simp only [mapM, hy, bind, Except.bind, Except.error.injEq] at h
      exact ⟨⟨d, y⟩, List.mem_cons_self, hy.trans (congrArg _ h)⟩
    | ok z =>
      cases hr : rest.mapM r with
      | error e' =>
        simp only [mapM, hy, hr, bind, Except.bind, Except.error.injEq] at h
        obtain ⟨x, hx, failed⟩ := ih (hr.trans (congrArg _ h))
        exact ⟨x, List.mem_cons_of_mem _ hx, failed⟩
      | ok b =>
        simp only [mapM, hy, hr, bind, Except.bind, pure, Except.pure, reduceCtorEq] at h

end Args

/-! ## What may be wrong with a node -/

namespace Node

/-- The operands of a node, of whatever category. -/
def operands (n : Node Handle c) : List AnyHandle := n.args.elements fun {d} h => ⟨d, h⟩

/-- An operand is past its table, or a coordinate beyond the second is asked for. -/
inductive Overreaches (f : Factory) : {c : Category} → Node Handle c → Prop where
  | operand {c : Category} {n : Node Handle c} {x : AnyHandle} :
      x ∈ n.operands → f.count x.1 ≤ x.2.index → Overreaches f n
  | coordinate {x : Handle .role} {i : Nat} :
      1 < i → Overreaches f ⟨.projection, .element x (.position i .nil)⟩

/-- A predicate or constant is not, in all its fields, the entry of the vocabulary at its index, or
a predicate does not fit its place. -/
inductive Misnames (v : Vocabulary) : {c : Category} → Node Handle c → Prop where
  | predicate {c : Category} {n : Node Handle c} {p : Predicate} :
      p ∈ n.args.predicates → v.predicates[p.index]? ≠ some p → Misnames v n
  | constant {c : Category} {n : Node Handle c} {k : Constant} :
      k ∈ n.args.constants → v.constants[k.index]? ≠ some k → Misnames v n
  | conceptPosition {p : Predicate} {i : Nat} :
      p.arity ≤ i → Misnames v ⟨.primitiveConcept, .predicate p (.position i .nil)⟩
  | rolePosition {p : Predicate} {i j : Nat} : p.arity ≤ i ∨ p.arity ≤ j →
      Misnames v ⟨.primitiveRole, .predicate p (.position i (.position j .nil))⟩
  | nullary {p : Predicate} : p.arity ≠ 0 → Misnames v ⟨.nullary, .predicate p .nil⟩

variable {n : Node Handle c}

/-- Operators take operands or names, and none takes both. -/
theorem operands_eq_nil_or (n : Node Handle c) :
    n.operands = [] ∨ n.args.predicates = [] ∧ n.args.constants = [] := by
  obtain ⟨o, a⟩ := n
  cases o <;> casesm* Args _ _ <;> first
    | exact .inl rfl
    | exact .inr ⟨rfl, rfl⟩

theorem Misnames.operands_eq_nil (h : n.Misnames v) : n.operands = [] := by
  cases h with
  | predicate hp _ =>
    refine n.operands_eq_nil_or.resolve_right fun none => ?_
    rw [none.1] at hp
    cases hp
  | constant hk _ =>
    refine n.operands_eq_nil_or.resolve_right fun none => ?_
    rw [none.2] at hk
    cases hk
  | conceptPosition _ | rolePosition _ | nullary _ => rfl

theorem Overreaches.operands_ne_nil (h : n.Overreaches f) : n.operands ≠ [] := by
  cases h with
  | operand hx _ => exact List.ne_nil_of_mem hx
  | coordinate _ => exact List.cons_ne_nil _ _

/-- At most one of the two is wrong with a node. -/
theorem Misnames.not_overreaches (h : n.Misnames v) : ¬ n.Overreaches f :=
  fun h' => h'.operands_ne_nil h.operands_eq_nil

theorem index_lt_of_mem_operands {x : AnyHandle}
    (stored : n.args.All fun {d} h => h.index < f.count d) (hx : x ∈ n.operands) :
    x.2.index < f.count x.1 :=
  Args.all_iff_elements (e := fun {d} h => (⟨d, h⟩ : AnyHandle))
    (p := fun x => x.2.index < f.count x.1) |>.mp stored x hx

theorem not_misnames (names : n.args.checkNames v = .ok ())
    (positions : n.checkPositions = .ok ()) : ¬ n.Misnames v := by
  rw [Args.checkNames_eq_ok_iff] at names
  rw [checkPositions_eq_ok_iff] at positions
  intro h
  cases h with
  | predicate hp other => exact other (names.1 _ hp)
  | constant hk other => exact other (names.2 _ hk)
  | conceptPosition le => exact absurd positions (Nat.not_lt.mpr le)
  | rolePosition le =>
    rcases le with le | le
    · exact absurd positions.1 (Nat.not_lt.mpr le)
    · exact absurd positions.2 (Nat.not_lt.mpr le)
  | nullary ne => exact ne positions

theorem checkPosition_eq_error {p : Predicate} {i : Nat} {e : Error}
    (h : checkPosition p i = .error e) : p.arity ≤ i ∧ e.kind = .vocabulary := by
  unfold checkPosition at h
  split at h
  · cases h
  · next le =>
    cases h
    exact ⟨Nat.not_lt.mp le, rfl⟩

/-- The kind of the error tells which position is refused. -/
theorem checkPositions_eq_error {e : Error} (h : n.checkPositions = .error e) :
    e.kind = .vocabulary ∧ n.Misnames v ∨ e.kind = .structural ∧ n.Overreaches f := by
  obtain ⟨o, a⟩ := n
  cases o with
  | primitiveConcept =>
    casesm* Args _ _
    obtain ⟨le, kind⟩ := checkPosition_eq_error h
    exact .inl ⟨kind, .conceptPosition le⟩
  | primitiveRole =>
    casesm* Args _ _
    rename_i p i j
    change (checkPosition p i >>= fun _ => checkPosition p j) = .error e at h
    cases first : checkPosition p i with
    | error e' =>
      rw [first] at h
      cases h
      obtain ⟨le, kind⟩ := checkPosition_eq_error first
      exact .inl ⟨kind, .rolePosition (.inl le)⟩
    | ok u =>
      rw [first] at h
      obtain ⟨le, kind⟩ := checkPosition_eq_error h
      exact .inl ⟨kind, .rolePosition (.inr le)⟩
  | nullary =>
    casesm* Args _ _
    rename_i p
    change (if p.arity = 0 then Except.ok () else Except.error _) = _ at h
    split at h
    · cases h
    · next ne =>
      cases h
      exact .inl ⟨rfl, .nullary ne⟩
  | projection =>
    casesm* Args _ _
    rename_i x i
    change (if i ≤ 1 then Except.ok () else Except.error _) = _ at h
    split at h
    · cases h
    · next lt =>
      cases h
      exact .inr ⟨rfl, .coordinate (Nat.not_le.mp lt)⟩
  | _ =>
    casesm* Args _ _
    cases h

end Node

/-! ## Preparing a node -/

namespace Factory

variable {n : Node Handle c}

/-- An operand that is not known is past its table. -/
theorem known_eq_error {h : Handle c} {e : Error} (unknown : f.known h = .error e) :
    f.count c ≤ h.index ∧ e.kind = .structural := by
  unfold known entry at unknown
  cases he : f.get? h with
  | some entry =>
    rw [he] at unknown
    cases unknown
  | none =>
    rw [he] at unknown
    cases unknown
    refine ⟨Nat.not_lt.mp fun lt => ?_, rfl⟩
    obtain ⟨e, stored⟩ := exists_get?_iff.mpr lt
    rw [he] at stored
    cases stored

/-- One of the two is wrong with a node, and the kind of the error tells which, or the node is
prepared and nothing is wrong with it. -/
theorem prepare_cases (f : Factory) (n : Node Handle c) :
    (∃ e, f.prepare n = .error e ∧ e.kind = .vocabulary ∧ n.Misnames f.vocabulary) ∨
      (∃ e, f.prepare n = .error e ∧ e.kind = .structural ∧ n.Overreaches f) ∨
      ∃ e, f.prepare n = .ok e ∧ ¬ n.Misnames f.vocabulary ∧ ¬ n.Overreaches f := by
  cases names : n.args.checkNames f.vocabulary with
  | error e =>
    refine .inl ⟨e, by rw [prepare, names]; rfl, Args.kind_of_checkNames names, ?_⟩
    have refused : ¬ n.args.checkNames f.vocabulary = .ok () := by
      rw [names]
      exact nofun
    rw [Args.checkNames_eq_ok_iff, not_and_or] at refused
    rcases refused with refused | refused
    · push Not at refused
      obtain ⟨p, hp, other⟩ := refused
      exact .predicate hp other
    · push Not at refused
      obtain ⟨k, hk, other⟩ := refused
      exact .constant hk other
  | ok u =>
    cases positions : n.checkPositions with
    | error e =>
      have failed : f.prepare n = .error e := by
        rw [prepare, names, positions]
        rfl
      rcases Node.checkPositions_eq_error positions with ⟨kind, wrong⟩ | ⟨kind, wrong⟩
      · exact .inl ⟨e, failed, kind, wrong⟩
      · exact .inr (.inl ⟨e, failed, kind, wrong⟩)
    | ok u =>
      cases operands : n.args.mapM f.known with
      | error e =>
        obtain ⟨x, hx, unknown⟩ := Args.exists_of_mapM_eq_error operands
        obtain ⟨le, kind⟩ := known_eq_error unknown
        have failed : f.prepare n = .error e := by
          rw [prepare, names, positions, operands]
          rfl
        exact .inr (.inl ⟨e, failed, kind, .operand hx le⟩)
      | ok ks =>
        refine .inr (.inr ⟨_, by rw [prepare, names, positions, operands]; rfl,
          Node.not_misnames names positions, ?_⟩)
        intro wrong
        cases wrong with
        | @operand _ _ x hx le =>
          have stored : n.args.All fun {d} h => h.index < f.count d :=
            (Args.mapM_eq_ok.mp operands).all_left fun known =>
              exists_get?_iff.mp ((known_eq_ok_iff.mp known).2.imp fun _ => And.left)
          exact absurd le (Nat.not_le.mpr (Node.index_lt_of_mem_operands stored hx))
        | coordinate lt =>
          have le := Node.checkPositions_projection.mp positions
          exact absurd le (Nat.not_le.mpr lt)

/-! ## The text that is asked for -/

/-- The text of the element at a handle, empty if there is none. -/
def textAt (f : Factory) (h : Handle c) : String := (f.get? h).elim "" fun e => e.summary.text

/-- The text of the element that a node asks for: the keyword applied to the texts of the arguments,
where the operands of commutative operators are in the order of their texts. -/
def requestedText (f : Factory) (n : Node Handle c) : String :=
  (n.sorted fun x y => decide (f.textAt x ≤ f.textAt y)).text f.textAt

theorem textAt_of_get? {h : Handle c} {e : Entry c} (he : f.get? h = some e) :
    f.textAt h = e.summary.text := by
  rw [textAt, he]
  rfl

/-- A prepared entry has the text that is asked for. -/
theorem text_of_prepare {e : Entry c} (hn : f.prepare n = .ok e) :
    e.summary.text = f.requestedText n := by
  obtain ⟨-, -, ks, hks, rfl⟩ := prepare_eq_ok_iff.mp hn
  have texts : (n.map f.textAt : Node Term.Texts c) =
      (⟨n.operator, ks⟩ : Node Known c).map fun k => k.2.text := by
    refine congrArg (Node.mk n.operator) (Args.rel_eq_iff.mp (hks.imp fun {_ h k} hk => ?_))
    obtain ⟨-, e, he, hs⟩ := known_eq_ok_iff.mp hk
    rw [textAt_of_get? he, hs]
  have ordered := Node.text_sorted_map (n := ⟨n.operator, ks⟩) (fun k : Known _ => k.2.text)
    (fun x y => decide (x ≤ y)) fun s => s
  rw [← texts, Node.text_sorted_map] at ordered
  exact ordered.symm

/-! ## Storing an entry -/

/-- An element of the category has the text. -/
def HasText (f : Factory) (c : Category) (s : String) : Prop :=
  ∃ (h : Handle c) (e : Entry c), f.get? h = some e ∧ e.summary.text = s

/-- `g` is `f` with an element of the text `s` at `h`: one that was there, or else one that is
appended to the table of its category. -/
structure Stores (f : Factory) (s : String) (h : Handle c) (g : Factory) : Prop where
  /-- The element at `h` has the text. -/
  text_eq : ∃ e, g.get? h = some e ∧ e.summary.text = s
  /-- Nothing is added if there was an element with the text. -/
  eq_of_hasText : f.HasText c s → g = f
  /-- Otherwise one entry is added, at the end. -/
  entries_eq_push : ¬ f.HasText c s → h.index = f.count c ∧
    ∃ e, e.summary.text = s ∧ (g.tables.get c).entries = (f.tables.get c).entries.push e
  /-- The tables of the other categories stay. -/
  tables_eq : ∀ d, d ≠ c → g.tables.get d = f.tables.get d

theorem Valid.stores_insert (hf : f.Valid) (e : Entry c) :
    f.Stores e.summary.text (f.insert e).1 (f.insert e).2 := by
  have text := hf.get?_insert e
  cases found : f.find? c e.summary.text with
  | some h =>
    have stored : f.HasText c e.summary.text := ⟨h, hf.find?_eq_some_iff.mp found⟩
    have inserted : f.insert e = (h, f) := by
      rw [Factory.insert, found]
    rw [inserted] at text ⊢
    exact ⟨text, fun _ => rfl, fun new => absurd stored new, fun _ _ => rfl⟩
  | none =>
    have new : ¬ f.HasText c e.summary.text := by
      rintro ⟨h, e', he', same⟩
      rw [hf.find?_eq_some_iff.mpr ⟨e', he', same⟩] at found
      cases found
    have inserted : f.insert e = (⟨f.count c⟩, f.push e) := by
      rw [Factory.insert, found]
    rw [inserted] at text ⊢
    refine ⟨text, fun stored => absurd stored new, fun _ => ⟨rfl, e, rfl, ?_⟩, fun d hd => ?_⟩
    · show ((f.tables.modify c (·.push e)).get c).entries = _
      rw [PerCategory.get_modify_self]
      rfl
    · exact PerCategory.get_modify_of_ne hd.symm

/-! ## Forming a node -/

/-- **Forming a node is atomic.** It fails as a matter of structure exactly if an operand is past
its table or a coordinate beyond the second is asked for, fails as a matter of the vocabulary
exactly if a name is no entry or does not fit its place, and succeeds in all other cases. A call
that fails leaves the factory as it was. One that succeeds appends one entry to the table of its
category, or none if there is an element with the text that is asked for. -/
theorem make_atomic (hf : Reachable v f) (n : Node Handle c) :
    ((∃ e, ((BuildM.make n).run f).1 = .error e ∧ e.kind = .structural) ↔ n.Overreaches f) ∧
      ((∃ e, ((BuildM.make n).run f).1 = .error e ∧ e.kind = .vocabulary) ↔ n.Misnames v) ∧
      ((∃ h, ((BuildM.make n).run f).1 = .ok h) ↔ ¬ n.Overreaches f ∧ ¬ n.Misnames v) ∧
      (∀ e, ((BuildM.make n).run f).1 = .error e → ((BuildM.make n).run f).2 = f) ∧
      ∀ h, ((BuildM.make n).run f).1 = .ok h →
        f.Stores (f.requestedText n) h ((BuildM.make n).run f).2 := by
  rw [BuildM.run_make, ← hf.vocabulary]
  rcases prepare_cases f n with ⟨e, failed, kind, wrong⟩ | ⟨e, failed, kind, wrong⟩ |
    ⟨e, prepared, names, operands⟩
  · have other : ¬ n.Overreaches f := wrong.not_overreaches
    rw [failed]
    simp [kind, wrong, other]
  · have other : ¬ n.Misnames f.vocabulary := fun h => h.not_overreaches wrong
    rw [failed]
    simp [kind, wrong, other]
  · have stored := hf.valid.stores_insert e
    rw [text_of_prepare prepared] at stored
    rw [prepared]
    simp [names, operands, stored]

/-- A negation of an element that is not there is refused. -/
theorem make_atomic_unstored :
    let v : Vocabulary := .empty 0
    let f := ((BuildM.make ⟨.top, .nil⟩).run (empty v)).2
    let n : Node Handle .concept := ⟨.notConcept, .element ⟨7⟩ .nil⟩
    (∃ e, ((BuildM.make n).run f).1 = .error e ∧ e.kind = .structural) ∧
      ((BuildM.make n).run f).2 = f := by
  intro v f n
  have reached : Reachable v f := .single (.make ⟨.top, .nil⟩)
  have first : f.count .concept = 1 := by
    show ((BuildM.make ⟨.top, .nil⟩).run (empty v)).2.count .concept = 1
    rw [BuildM.run_make]
    show ((empty v).insert _).2.count .concept = 1
    rw [insert_empty]
    rfl
  obtain ⟨structural, -, -, kept, -⟩ := make_atomic reached n
  have past : n.Overreaches f :=
    .operand (x := ⟨.concept, ⟨7⟩⟩) List.mem_cons_self (by simp [first])
  obtain ⟨e, failed, kind⟩ := structural.mpr past
  exact ⟨⟨e, failed, kind⟩, kept e failed⟩

end Factory

end DescLogic
