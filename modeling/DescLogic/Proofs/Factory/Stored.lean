import DescLogic.Factory.Basic
import DescLogic.Proofs.Args
import Mathlib.Logic.Relation
/-!
# What a factory stores

Whatever a factory stores was prepared from a node over it, and is found by its text
(`Factory.Valid`). The factory without elements is valid, and storing a prepared element keeps
validity (`Valid.insert`).

A factory that grows keeps its vocabulary and its elements (`Factory.Extends`), so a node that could
be prepared can be prepared again, with the same outcome (`Extends.prepare`).

* `Factory.Grows`: the store after any number of insertions of prepared elements.
* `Factory.prepare_eq_ok_iff`: the nodes that can be prepared, and what their entries are.
-/

namespace DescLogic

variable {c d : Category}

/-! ## Tables -/

namespace Table

variable {t : Table c} {e : Entry c}

@[simp] theorem get?_empty {h : Handle c} : (empty : Table c).get? h = none := by
  simp [get?, empty]

@[simp] theorem find?_empty {s : String} : (empty : Table c).find? s = none := by
  simp [find?, empty]

theorem get?_push {h : Handle c} :
    (t.push e).get? h = if h.index = t.size then some e else t.get? h := by
  unfold get? push size
  rw [Array.getElem?_push]

theorem find?_push {s : String} :
    (t.push e).find? s = if e.summary.text = s then some ⟨t.size⟩ else t.find? s := by
  unfold find? push size
  rw [Std.HashMap.getElem?_insert]
  by_cases h : e.summary.text = s <;> simp [h]

theorem index_lt_size {h : Handle c} (he : t.get? h = some e) : h.index < t.size := by
  obtain ⟨hlt, -⟩ := Array.getElem?_eq_some_iff.mp he
  exact hlt

end Table

namespace Factory

variable {f g : Factory}

/-! ## Storing one element -/

section Push

variable {e : Entry c}

theorem get?_push_self {h : Handle c} :
    (f.push e).get? h = if h.index = f.count c then some e else f.get? h := by
  unfold get? push count
  rw [PerCategory.get_modify_self, Table.get?_push]

theorem get?_push_of_ne (hcd : c ≠ d) {h : Handle d} : (f.push e).get? h = f.get? h := by
  unfold get? push
  rw [PerCategory.get_modify_of_ne hcd]

theorem find?_push_self {s : String} :
    (f.push e).find? c s = if e.summary.text = s then some ⟨f.count c⟩ else f.find? c s := by
  unfold find? push count
  rw [PerCategory.get_modify_self, Table.find?_push]

theorem find?_push_of_ne (hcd : c ≠ d) {s : String} : (f.push e).find? d s = f.find? d s := by
  unfold find? push
  rw [PerCategory.get_modify_of_ne hcd]

theorem index_lt_count {h : Handle c} (he : f.get? h = some e) : h.index < f.count c :=
  Table.index_lt_size he

theorem exists_get?_iff {h : Handle c} : (∃ e, f.get? h = some e) ↔ h.index < f.count c :=
  ⟨fun ⟨_, he⟩ => index_lt_count he, fun lt => ⟨_, Array.getElem?_eq_getElem lt⟩⟩

theorem get?_eq_none_iff {h : Handle c} : f.get? h = none ↔ f.count c ≤ h.index := by
  rw [← Nat.not_lt, ← exists_get?_iff]
  cases f.get? h <;> simp

/-- What was stored before stays where it is. -/
theorem get?_push_of_some {h : Handle d} {e' : Entry d} (he : f.get? h = some e') :
    (f.push e).get? h = some e' := by
  by_cases hcd : c = d
  · subst hcd
    have := index_lt_count he
    rw [get?_push_self, if_neg (by omega), he]
  · rw [get?_push_of_ne hcd, he]

@[simp] theorem get?_empty {v : Vocabulary} {h : Handle c} : (empty v).get? h = none := by
  cases c <;> exact Table.get?_empty

@[simp] theorem find?_empty {v : Vocabulary} {s : String} : (empty v).find? c s = none := by
  cases c <;> exact Table.find?_empty

end Push

/-! ## Preparing nodes -/

theorem known_eq_ok_iff {h : Handle c} {k : Known c} :
    f.known h = .ok k ↔ k.1 = h ∧ ∃ e, f.get? h = some e ∧ e.summary = k.2 := by
  obtain ⟨h', s⟩ := k
  unfold known entry
  cases he : f.get? h with
  | none => simp [bind, Except.bind]
  | some e =>
    simp only [bind, Except.bind, pure, Except.pure, Except.ok.injEq, Prod.mk.injEq,
      Option.some.injEq, exists_eq_left']
    exact and_congr_left' eq_comm

/-- The nodes that can be prepared, and what their entries are. -/
theorem prepare_eq_ok_iff {n : Node Handle c} {e : Entry c} :
    f.prepare n = .ok e ↔
      n.args.checkNames f.vocabulary = .ok () ∧ n.checkPositions = .ok () ∧
        ∃ ks : Args Known n.operator.signature,
          n.args.Rel (fun h k => f.known h = .ok k) ks ∧ entryOf ⟨n.operator, ks⟩ = e := by
  unfold prepare
  rw [← exists_congr fun ks => and_congr_left' Args.mapM_eq_ok]
  cases n.args.checkNames f.vocabulary <;> cases n.checkPositions <;>
    cases n.args.mapM f.known <;> simp [bind, Except.bind, pure, Except.pure]

/-! ## Growing -/

/-- `g` has the vocabulary of `f` and all elements of `f`, at the same handles. -/
structure Extends (f g : Factory) : Prop where
  /-- The vocabulary is the same. -/
  vocabulary : g.vocabulary = f.vocabulary
  /-- The elements of `f` are in `g`. -/
  get? : ∀ {c : Category} {h : Handle c} {e : Entry c}, f.get? h = some e → g.get? h = some e

theorem Extends.refl (f : Factory) : f.Extends f := ⟨rfl, id⟩

theorem Extends.trans {k : Factory} (h : f.Extends g) (h' : g.Extends k) : f.Extends k :=
  ⟨h'.vocabulary.trans h.vocabulary, fun he => h'.get? (h.get? he)⟩

theorem Extends.known (hfg : f.Extends g) {h : Handle c} {k : Known c}
    (hk : f.known h = .ok k) : g.known h = .ok k := by
  obtain ⟨h', e, he, hs⟩ := known_eq_ok_iff.mp hk
  exact known_eq_ok_iff.mpr ⟨h', e, hfg.get? he, hs⟩

/-- What can be prepared can be prepared later, with the same outcome. -/
theorem Extends.prepare (hfg : f.Extends g) {n : Node Handle c} {e : Entry c}
    (hn : f.prepare n = .ok e) : g.prepare n = .ok e := by
  obtain ⟨names, positions, ks, hks, rfl⟩ := prepare_eq_ok_iff.mp hn
  refine prepare_eq_ok_iff.mpr ⟨?_, positions, ks, hks.imp hfg.known, rfl⟩
  rw [hfg.vocabulary]
  exact names

theorem extends_insert {e : Entry c} : f.Extends (f.insert e).2 := by
  unfold insert
  cases f.find? c e.summary.text with
  | some h => exact .refl f
  | none => exact ⟨rfl, get?_push_of_some⟩

/-- `g` is `f` after the insertion of a prepared element. -/
inductive Inserts (f : Factory) : Factory → Prop where
  | intro {c : Category} {n : Node Handle c} {e : Entry c} :
      f.prepare n = .ok e → Inserts f (f.insert e).2

/-- `g` is `f` after insertions of prepared elements. -/
def Grows (f g : Factory) : Prop := Relation.ReflTransGen Inserts f g

theorem Grows.refl (f : Factory) : f.Grows f := Relation.ReflTransGen.refl

theorem Grows.trans {k : Factory} (h : f.Grows g) (h' : g.Grows k) : f.Grows k :=
  Relation.ReflTransGen.trans h h'

instance : IsPreorder Factory Grows where
  refl := Grows.refl
  trans _ _ _ := Grows.trans

theorem Grows.extends (h : f.Grows g) : f.Extends g := by
  induction h with
  | refl => exact .refl f
  | tail _ step ih =>
    cases step
    exact ih.trans extends_insert

/-! ## Validity -/

/-- Every stored element was prepared from a node over the store, and texts lead to elements. -/
structure Valid (f : Factory) : Prop where
  /-- The elements are found by their texts. -/
  find?_eq_some_iff : ∀ {c : Category} {s : String} {h : Handle c},
    f.find? c s = some h ↔ ∃ e, f.get? h = some e ∧ e.summary.text = s
  /-- The elements were prepared. -/
  prepared : ∀ {c : Category} {h : Handle c} {e : Entry c},
    f.get? h = some e → ∃ n : Node Handle c, f.prepare n = .ok e

theorem valid_empty (v : Vocabulary) : (empty v).Valid where
  find?_eq_some_iff := by simp
  prepared := by simp

/-- The elements are told apart by their texts. -/
theorem Valid.eq_of_text (hf : f.Valid) {h h' : Handle c} {e e' : Entry c}
    (he : f.get? h = some e) (he' : f.get? h' = some e')
    (text : e.summary.text = e'.summary.text) : h = h' := by
  have found := hf.find?_eq_some_iff.mpr ⟨e, he, rfl⟩
  have found' := hf.find?_eq_some_iff.mpr ⟨e', he', text.symm⟩
  rw [found] at found'
  exact Option.some.inj found'

/-- An element whose text is new may be appended. -/
theorem Valid.push (hf : f.Valid) {e : Entry c} {n : Node Handle c} (hn : f.prepare n = .ok e)
    (new : f.find? c e.summary.text = none) : (f.push e).Valid where
  find?_eq_some_iff := by
    intro d s h
    by_cases hcd : c = d
    · subst hcd
      rw [find?_push_self, get?_push_self]
      by_cases hs : e.summary.text = s
      · subst hs
        have absent : ∀ (h : Handle c) (e' : Entry c), f.get? h = some e' →
            e'.summary.text ≠ e.summary.text := by
          intro h e' he' text
          rw [hf.find?_eq_some_iff.mpr ⟨e', he', text⟩] at new
          cases new
        rw [if_pos rfl]
        by_cases hi : h.index = f.count c
        · rw [if_pos hi, ← hi]
          simp
        · rw [if_neg hi]
          constructor
          · rintro ⟨⟩
            exact absurd rfl hi
          · rintro ⟨e', he', text⟩
            exact absurd text (absent h e' he')
      · rw [if_neg hs, hf.find?_eq_some_iff]
        by_cases hi : h.index = f.count c
        · rw [if_pos hi]
          constructor
          · rintro ⟨e', he', -⟩
            have := index_lt_count he'
            omega
          · rintro ⟨e', ⟨⟩, text⟩
            exact absurd text hs
        · rw [if_neg hi]
    · rw [find?_push_of_ne hcd, get?_push_of_ne hcd]
      exact hf.find?_eq_some_iff
  prepared := by
    have grown : f.Extends (f.push e) := ⟨rfl, get?_push_of_some⟩
    intro d h e' he'
    by_cases hcd : c = d
    · subst hcd
      rw [get?_push_self] at he'
      by_cases hi : h.index = f.count c
      · rw [if_pos hi] at he'
        cases he'
        exact ⟨n, grown.prepare hn⟩
      · rw [if_neg hi] at he'
        obtain ⟨n', hn'⟩ := hf.prepared he'
        exact ⟨n', grown.prepare hn'⟩
    · rw [get?_push_of_ne hcd] at he'
      obtain ⟨n', hn'⟩ := hf.prepared he'
      exact ⟨n', grown.prepare hn'⟩

theorem Valid.insert (hf : f.Valid) {e : Entry c} {n : Node Handle c} (hn : f.prepare n = .ok e) :
    (f.insert e).2.Valid := by
  unfold Factory.insert
  cases h : f.find? c e.summary.text with
  | some _ => exact hf
  | none => exact hf.push hn h

/-- The handle of an inserted element leads to an element with its text. -/
theorem Valid.get?_insert (hf : f.Valid) (e : Entry c) :
    ∃ e', (f.insert e).2.get? (f.insert e).1 = some e' ∧ e'.summary.text = e.summary.text := by
  unfold Factory.insert
  cases h : f.find? c e.summary.text with
  | some _ => exact hf.find?_eq_some_iff.mp h
  | none => exact ⟨e, by rw [get?_push_self, if_pos rfl], rfl⟩

theorem Grows.valid (h : f.Grows g) (hf : f.Valid) : g.Valid := by
  induction h with
  | refl => exact hf
  | tail _ step ih =>
    cases step with
    | intro hn => exact ih.insert hn

end Factory

end DescLogic
