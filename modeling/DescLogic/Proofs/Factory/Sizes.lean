import DescLogic.Proofs.Factory.Invariant
import Mathlib.Order.Monotone.Basic
/-!
# Complexity and score of stored elements

The complexity of a stored element is at most its score, and its score is at most the number of
bytes of its text: an operator costs no more than its keyword has bytes, and the text of an operand
is part of the text. As a text is shorter than half of what a machine word can count, the sums that
form complexity and score stay within a word.

* `Summary.Sized`, `Node.sized_summary`: the bound, and that it passes from operands to nodes.
* `Factory.prepare?`: preparing a node where each sum is checked to be below a limit.
* `BuildM.doubled`: calls that double the element formed last.
* `Factory.sizes_fit`: what holds of the sizes in a reachable factory.
-/

namespace DescLogic

variable {χ : Category → Type} {ps : List Parameter} {c d : Category}

/-! ## Bytes of a text -/

theorem Text.sum_size_le_size_join (args : List String) :
    (args.map String.utf8ByteSize).sum ≤ (String.join (args.map ("," ++ ·))).utf8ByteSize := by
  induction args with
  | nil => exact Nat.zero_le _
  | cons x xs ih =>
    rw [List.map_cons, List.map_cons, List.sum_cons, String.join_cons, String.utf8ByteSize_append,
      String.utf8ByteSize_append]
    omega

/-- Keyword and arguments are parts of the text. -/
theorem Text.size_add_sum_le_size_applied (head : String) (args : List String) :
    head.utf8ByteSize + (args.map String.utf8ByteSize).sum ≤
      (Text.applied head args).utf8ByteSize := by
  cases args with
  | nil => exact Nat.le_refl _
  | cons x xs =>
    have rest := Text.sum_size_le_size_join xs
    simp only [Text.applied, Text.joined_cons, String.utf8ByteSize_append, List.map_cons,
      List.sum_cons]
    omega

theorem Operator.one_le_cost (o : Operator c) : 1 ≤ o.cost := by
  cases o <;> decide

/-- An operator costs no more than its keyword has bytes. -/
theorem Operator.cost_le_size_keyword (o : Operator c) : o.cost ≤ o.keyword.utf8ByteSize := by
  cases o <;> decide

/-! ## Sums over operands -/

namespace Args

theorem sum_elements_le {a : Args χ ps} {m n : {d : Category} → χ d → Nat}
    (h : a.All fun x => m x ≤ n x) : (a.elements m).sum ≤ (a.elements n).sum := by
  induction h with
  | nil => exact Nat.le_refl _
  | predicate _ _ ih | constant _ _ ih | position _ _ ih => exact ih
  | element hx _ ih => exact Nat.add_le_add hx ih

/-- Operands are among the arguments that are written. -/
theorem sum_size_elements_le (text : {d : Category} → χ d → String) (a : Args χ ps) :
    (a.elements fun x => (text x).utf8ByteSize).sum ≤
      ((a.texts text).map String.utf8ByteSize).sum := by
  induction a with
  | nil => exact Nat.le_refl _
  | predicate _ _ ih | constant _ _ ih | position _ _ ih => exact Nat.le_add_left_of_le ih
  | element x _ ih => exact Nat.add_le_add_left ih _

end Args

/-- The complexity is at most the score, and the score at most the number of bytes of the text. -/
structure Summary.Sized (s : Summary) : Prop where
  /-- No operator costs nothing. -/
  complexity_le : s.complexity ≤ s.score
  /-- No operator costs more than is written for it. -/
  score_le : s.score ≤ s.text.utf8ByteSize

namespace Node

variable {infoOf : {d : Category} → χ d → Summary} {n : Node χ c}

/-- The bound passes from the operands to the node. -/
theorem sized_summary (operands : n.args.All fun x => (infoOf x).Sized) :
    (n.summary infoOf).Sized where
  complexity_le := by
    have sum := Args.sum_elements_le (operands.imp fun hx => hx.complexity_le)
    rw [complexity_summary, score_summary]
    exact Nat.add_le_add n.operator.one_le_cost sum
  score_le := by
    rw [score_summary]
    calc n.operator.cost + (n.args.elements fun x => (infoOf x).score).sum
        ≤ n.operator.keyword.utf8ByteSize +
            (n.args.elements fun x => (infoOf x).text.utf8ByteSize).sum :=
          Nat.add_le_add n.operator.cost_le_size_keyword
            (Args.sum_elements_le (operands.imp fun hx => hx.score_le))
      _ ≤ n.operator.keyword.utf8ByteSize +
            ((n.args.texts fun x => (infoOf x).text).map String.utf8ByteSize).sum :=
          Nat.add_le_add_left (Args.sum_size_elements_le _ n.args) _
      _ ≤ (n.summary infoOf).text.utf8ByteSize := Text.size_add_sum_le_size_applied _ _

end Node

/-! ## Sums in machine words -/

/-- The sum of two numbers, if it is below the limit. -/
def checkedAdd (limit m n : Nat) : Option Nat := if m + n < limit then some (m + n) else none

/-- The sum of numbers, added up from left to right, if none of the sums reaches the limit. -/
def checkedSum (limit : Nat) (l : List Nat) : Option Nat := l.foldlM (checkedAdd limit) 0

theorem checkedAdd_eq_some {limit m n : Nat} (h : m + n < limit) :
    checkedAdd limit m n = some (m + n) :=
  if_pos h

theorem checkedSum_eq_some {limit : Nat} {l : List Nat} (h : l.sum < limit) :
    checkedSum limit l = some l.sum := by
  have fold : ∀ m, m + l.sum < limit → l.foldlM (checkedAdd limit) m = some (m + l.sum) := by
    clear h
    induction l with
    | nil => exact fun _ _ => rfl
    | cons x l ih =>
      intro m h
      rw [List.sum_cons, ← Nat.add_assoc] at h ⊢
      rw [List.foldlM_cons, checkedAdd_eq_some (by omega), Option.bind_eq_bind, Option.bind_some,
        ih _ h]
  simpa [checkedSum] using fold 0 (by simpa using h)

/-- The last of three sums does not fit. -/
example : checkedSum 4 [1, 2, 1] = none := by decide

/-- What is known of an element, if none of the sums on the way reaches the limit. The operands are
added up first. -/
def Node.summary? (limit : Nat) (infoOf : {d : Category} → χ d → Summary) (n : Node χ c) :
    Option Summary := do
  let infos := n.args.elements infoOf
  let complexity ← checkedAdd limit 1 (← checkedSum limit (infos.map Summary.complexity))
  let score ← checkedAdd limit n.operator.cost (← checkedSum limit (infos.map Summary.score))
  return { n.summary infoOf with complexity, score }

/-- Sums that fit are what is known of the element. -/
theorem Node.summary?_eq_some {limit : Nat} {infoOf : {d : Category} → χ d → Summary}
    {n : Node χ c} (complexity : (n.summary infoOf).complexity < limit)
    (score : (n.summary infoOf).score < limit) :
    n.summary? limit infoOf = some (n.summary infoOf) := by
  have complexity_eq : (n.summary infoOf).complexity = _ := complexity_summary
  have score_eq : (n.summary infoOf).score = _ := score_summary
  rw [complexity_eq] at complexity
  rw [score_eq] at score
  simp only [summary?, Args.map_elements]
  rw [checkedSum_eq_some (by omega), checkedSum_eq_some (by omega)]
  simp only [Option.bind_eq_bind, Option.bind_some, checkedAdd_eq_some complexity,
    checkedAdd_eq_some score, ← complexity_eq, ← score_eq]
  rfl

namespace Factory

variable {v : Vocabulary} {f g : Factory} {e : Entry c}

/-- The entry of a node whose operands are known, if none of the sums reaches the limit. -/
def entryOf? (limit : Nat) (n : Node Known c) : Option (Entry c) := do
  let n := n.sorted fun x y => decide (x.2.text ≤ y.2.text)
  return ⟨⟨n.operator, n.args.map Prod.fst⟩, ← n.summary? limit Prod.snd⟩

/-- The entry of a node, where each sum is checked to be below the limit. There is none if one of
them is not. -/
def prepare? (limit : Nat) (f : Factory) (n : Node Handle c) : Except Error (Option (Entry c)) := do
  n.args.checkNames f.vocabulary
  n.checkPositions
  return entryOf? limit ⟨n.operator, ← n.args.mapM f.known⟩

/-! ## Bounds of stored elements -/

/-- The bound holds of all stored elements. -/
def Sized (f : Factory) : Prop :=
  ∀ {c : Category} {h : Handle c} {e : Entry c}, f.get? h = some e → e.summary.Sized

/-- What holds of the summaries of all stored elements and of the one inserted holds of them
afterwards. -/
theorem forall_get?_insert {P : Summary → Prop}
    (stored : ∀ {d : Category} {h : Handle d} {s : Entry d}, f.get? h = some s → P s.summary)
    (inserted : P e.summary) {h : Handle d} {s : Entry d}
    (hs : (f.insert e).2.get? h = some s) : P s.summary := by
  unfold insert at hs
  cases found : f.find? c e.summary.text with
  | some _ =>
    rw [found] at hs
    exact stored hs
  | none =>
    rw [found] at hs
    by_cases same : c = d
    · subst same
      rw [get?_push_self] at hs
      split at hs
      · cases hs
        exact inserted
      · exact stored hs
    · rw [get?_push_of_ne same] at hs
      exact stored hs

theorem Sized.prepare (hf : f.Sized) {n : Node Handle c} (hn : f.prepare n = .ok e) :
    e.summary.Sized := by
  obtain ⟨-, -, ks, hks, rfl⟩ := prepare_eq_ok_iff.mp hn
  refine Node.sized_summary (Node.all_args_sorted.mpr (hks.all_right fun {_ h k} hk => ?_))
  obtain ⟨-, e, he, hs⟩ := known_eq_ok_iff.mp hk
  exact hs ▸ hf he

theorem Grows.sized (h : f.Grows g) (hf : f.Sized) : g.Sized := by
  induction h with
  | refl => exact hf
  | tail _ step ih =>
    cases step with
    | intro hn => exact fun he => forall_get?_insert ih (ih.prepare hn) he

theorem Reachable.sized (h : Reachable v f) : f.Sized :=
  Calls.grows h |>.sized fun he => by simp at he

/-- The sums fit if the text of the element does. -/
theorem Sized.prepare?_eq_some (hf : f.Sized) {n : Node Handle c} {limit : Nat}
    (hn : f.prepare n = .ok e) (short : e.summary.text.utf8ByteSize < limit) :
    f.prepare? limit n = .ok (some e) := by
  have sized := hf.prepare hn
  have score : e.summary.score < limit := sized.score_le.trans_lt short
  have complexity : e.summary.complexity < limit := sized.complexity_le.trans_lt score
  obtain ⟨names, positions, ks, hks, rfl⟩ := prepare_eq_ok_iff.mp hn
  have formed : entryOf? limit ⟨n.operator, ks⟩ = some (entryOf ⟨n.operator, ks⟩) := by
    simp only [entryOf?, Node.summary?_eq_some complexity score]
    rfl
  rw [prepare?, names, positions, Args.mapM_eq_ok.mpr hks, ← formed]
  rfl

end Factory

/-! ## Doubling -/

/-- The first of the calls forms the universal concept, and each of the `k` others the conjunction
of the concept formed last with itself. -/
def BuildM.doubled : Nat → BuildM (Handle .concept)
  | 0 => BuildM.make ⟨.top, .nil⟩
  | k + 1 => do
    let x ← doubled k
    BuildM.make ⟨.andConcept, .element x (.element x .nil)⟩

/-- What is known of the concept that `BuildM.doubled` forms. -/
def Summary.doubled : Nat → Summary
  | 0 => ⟨"c_top", 1, true, 1⟩
  | k + 1 =>
    Node.summary (fun s => s) (⟨.andConcept, .element (doubled k) (.element (doubled k) .nil)⟩ :
      Node (fun _ => Summary) .concept)

namespace Summary

variable {i j k : Nat}

theorem complexity_doubled : (doubled k).complexity = 2 ^ (k + 1) - 1 := by
  induction k with
  | zero => rfl
  | succ k ih =>
    have positive := Nat.two_pow_pos (k + 1)
    rw [doubled, Node.complexity_summary]
    simp only [Args.elements, List.sum_cons, List.sum_nil, ih, Nat.pow_succ 2 (k + 1)]
    omega

theorem score_doubled : (doubled k).score = 3 * 2 ^ k - 2 := by
  induction k with
  | zero => rfl
  | succ k ih =>
    have positive := Nat.two_pow_pos k
    rw [doubled, Node.score_summary]
    simp only [Args.elements, List.sum_cons, List.sum_nil, ih, Nat.pow_succ 2 k, Operator.cost]
    omega

/-- Texts are told apart by their length. -/
theorem doubled_inj (text : (doubled i).text = (doubled j).text) : i = j := by
  have longer : StrictMono fun k => (doubled k).text.utf8ByteSize := by
    refine strictMono_nat_of_lt_succ fun k => ?_
    have parts := Text.size_add_sum_le_size_applied "c_and" [(doubled k).text, (doubled k).text]
    have keyword : 0 < "c_and".utf8ByteSize := by decide
    refine Nat.lt_of_lt_of_le ?_ parts
    simp only [List.map_cons, List.sum_cons]
    omega
  exact longer.injective (congrArg String.utf8ByteSize text)

end Summary

namespace Factory

variable {v : Vocabulary} {f g : Factory}

/-- The entry of the conjunction of a stored concept with itself. -/
theorem exists_prepare_doubled {h : Handle .concept} {e : Entry .concept} {k : Nat}
    (he : f.get? h = some e) (hs : e.summary = Summary.doubled k) :
    ∃ e' : Entry .concept, f.prepare ⟨.andConcept, .element h (.element h .nil)⟩ = .ok e' ∧
      e'.summary = Summary.doubled (k + 1) := by
  have known : f.known h = .ok (h, e.summary) := known_eq_ok_iff.mpr ⟨rfl, e, he, rfl⟩
  let n : Node Known .concept :=
    ⟨.andConcept, .element (h, e.summary) (.element (h, e.summary) .nil)⟩
  have same : n.sorted (fun x y => decide (x.2.text ≤ y.2.text)) = n :=
    (Node.sorted_eq_or n _).elim id id
  refine ⟨entryOf n,
    prepare_eq_ok_iff.mpr ⟨rfl, rfl, _, .element known (.element known .nil), rfl⟩, ?_⟩
  show (n.sorted _).summary Prod.snd = _
  rw [same, Summary.doubled, ← hs]
  rfl

/-- `h` is the handle of the concept that `k + 1` calls formed, and only concepts that they formed
are stored. -/
structure HoldsDoubled (f : Factory) (h : Handle .concept) (k : Nat) : Prop where
  /-- The factory is valid. -/
  valid : f.Valid
  /-- The concept is stored. -/
  formed : ∃ e, f.get? h = some e ∧ e.summary = Summary.doubled k
  /-- Nothing else is stored but those it is formed of. -/
  only : ∀ {c : Category} {h : Handle c} {s : Entry c}, f.get? h = some s →
    ∃ i ≤ k, s.summary = Summary.doubled i

theorem holdsDoubled_insert {e : Entry .concept} {n : Node Handle .concept} {k : Nat}
    (hf : f.Valid) (hn : f.prepare n = .ok e) (hs : e.summary = Summary.doubled k)
    (only : ∀ {c : Category} {h : Handle c} {s : Entry c}, f.get? h = some s →
      ∃ i ≤ k, s.summary = Summary.doubled i) :
    HoldsDoubled (f.insert e).2 (f.insert e).1 k := by
  have only' : ∀ {c : Category} {h : Handle c} {s : Entry c}, (f.insert e).2.get? h = some s →
      ∃ i ≤ k, s.summary = Summary.doubled i :=
    forall_get?_insert (P := fun s => ∃ i ≤ k, s = Summary.doubled i) only ⟨k, le_rfl, hs⟩
  refine ⟨hf.insert hn, ?_, only'⟩
  -- What is at the handle has the text, and no other doubled concept has it.
  obtain ⟨e', he', text⟩ := hf.get?_insert e
  obtain ⟨i, -, hi⟩ := only' he'
  rw [hi, hs] at text
  exact ⟨e', he', Summary.doubled_inj text ▸ hi⟩

theorem run_doubled (v : Vocabulary) (k : Nat) :
    ∃ h g, (BuildM.doubled k).run (empty v) = (.ok h, g) ∧ HoldsDoubled g h k := by
  induction k with
  | zero =>
    have prepared : (empty v).prepare ⟨.top, .nil⟩ = .ok ⟨⟨.top, .nil⟩, Summary.doubled 0⟩ := rfl
    refine ⟨_, _, ?_, holdsDoubled_insert (valid_empty v) prepared rfl fun hs => by simp at hs⟩
    rw [BuildM.doubled, BuildM.run_make, prepared]
  | succ k ih =>
    obtain ⟨h, f, run, holds⟩ := ih
    obtain ⟨e, he, hs⟩ := holds.formed
    obtain ⟨e', prepared, hs'⟩ := exists_prepare_doubled he hs
    refine ⟨_, _, ?_, holdsDoubled_insert holds.valid prepared hs' fun hs => ?_⟩
    · rw [BuildM.doubled, Procedure.run_bind_ok run, BuildM.run_make, prepared]
    · obtain ⟨i, hi, hs⟩ := holds.only hs
      exact ⟨i, by omega, hs⟩

/-- **Sizes of elements.** In a reachable factory the complexity of an element is at most its score,
and the score at most the number of bytes of its text. A text has less than `2 ^ 63` bytes, so for
every node that can be prepared, stored already or not, the sums that form complexity and score
fit a word of 64 bits. They are exponential in the number of calls at worst. -/
theorem sizes_fit (hf : Reachable v f) :
    (∀ {c : Category} {h : Handle c} {e : Entry c}, f.get? h = some e →
      e.summary.complexity ≤ e.summary.score ∧
        e.summary.score ≤ e.summary.text.utf8ByteSize) ∧
    (∀ {c : Category} {n : Node Handle c} {e : Entry c}, f.prepare n = .ok e →
      e.summary.text.utf8ByteSize < 2 ^ 63 → f.prepare? (2 ^ 64) n = .ok (some e)) ∧
    ∀ k : Nat, ∃ h g, (BuildM.doubled k).run (empty v) = (.ok h, g) ∧
      ∃ e, g.get? h = some e ∧ e.summary.complexity = 2 ^ (k + 1) - 1 ∧
        e.summary.score = 3 * 2 ^ k - 2 := by
  refine ⟨fun he => ⟨(hf.sized he).complexity_le, (hf.sized he).score_le⟩, ?_, fun k => ?_⟩
  · intro c n e hn short
    exact Sized.prepare?_eq_some hf.sized hn (by omega)
  · obtain ⟨h, g, run, holds⟩ := run_doubled v k
    obtain ⟨e, he, hs⟩ := holds.formed
    refine ⟨h, g, run, e, he, ?_, ?_⟩
    · rw [hs, Summary.complexity_doubled]
    · rw [hs, Summary.score_doubled]

/-- The negation of the universal concept, and four calls that double it. -/
theorem sizes_fit_top :
    let v : Vocabulary := .empty 0
    let f := ((BuildM.make ⟨.top, .nil⟩).run (empty v)).2
    let n : Node Handle .concept := ⟨.notConcept, .element ⟨0⟩ .nil⟩
    let e : Entry .concept := ⟨n, ⟨"c_not(c_top)", 2, true, 3⟩⟩
    Reachable v f ∧ (1 ≤ 1 ∧ 1 ≤ "c_top".utf8ByteSize) ∧
      f.prepare n = .ok e ∧ f.prepare? (2 ^ 64) n = .ok (some e) ∧
      ∃ h g, (BuildM.doubled 3).run (empty v) = (.ok h, g) ∧
        ∃ e, g.get? h = some e ∧ e.summary.complexity = 15 ∧ e.summary.score = 22 := by
  intro v f n e
  have reached : Reachable v f := .single (.make ⟨.top, .nil⟩)
  have top : f.get? (⟨0⟩ : Handle .concept) = some ⟨⟨.top, .nil⟩, ⟨"c_top", 1, true, 1⟩⟩ :=
    get?_make_empty rfl
  have prepared : f.prepare n = .ok e := by
    have known : f.known (⟨0⟩ : Handle .concept) = .ok (⟨0⟩, ⟨"c_top", 1, true, 1⟩) :=
      known_eq_ok_iff.mpr ⟨rfl, _, top, rfl⟩
    exact prepare_eq_ok_iff.mpr ⟨rfl, rfl, _, .element known .nil, rfl⟩
  obtain ⟨bound, fits, doubled⟩ := sizes_fit reached
  exact ⟨reached, bound top, prepared, fits prepared (by decide), doubled 3⟩

end Factory

end DescLogic
