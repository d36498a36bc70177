import DescLogic.Factory.Description
import DescLogic.Proofs.Exchange
import DescLogic.Proofs.Vocabulary
import Mathlib.Data.List.Induction
import Mathlib.Data.Nat.Digits.Defs
/-!
# What an expression describes

`Expression.Describes v e t` says that the expression `e` is the term `t` over the vocabulary `v`
written as a tree: its head is the keyword of the term's operator, its arguments are the arguments
of the term one for one, names are those of entries, and positions are spelled in decimal digits and
lie in the range that the operator allows. An expression is well typed if it describes a term.

`Expression.Exchange` relates expressions that become each other when arguments of commutative
operators are exchanged.

* `positionValue?_eq_some_iff`: what is read as a position.
* `Operator.ofHead_eq_ok`, `Describes.ofHead_eq`: the operator that a head stands for.
* `Expression.Exchange.describes`: exchanging arguments exchanges the operands of what is described.
-/

namespace DescLogic

/-! ## Positions -/

/-- The number that digits spell in decimal notation. -/
def decimal (digits : List Char) : Nat :=
  Nat.ofDigits 10 (digits.reverse.map fun d => d.toNat - '0'.toNat)

/-- The text spells the position `i`: decimal digits, which one plus sign may precede. -/
def SpellsPosition (text : String) (i : Nat) : Prop :=
  ∃ digits, (text.toList = digits ∨ text.toList = '+' :: digits) ∧ digits ≠ [] ∧
    (∀ d ∈ digits, d.isDigit = true) ∧ decimal digits = i ∧ i < positionBound

theorem positionBound_pos : 0 < positionBound := by
  decide

theorem decimal_append (digits : List Char) (d : Char) :
    decimal (digits ++ [d]) = 10 * decimal digits + (d.toNat - '0'.toNat) := by
  rw [decimal, decimal, List.reverse_append, List.reverse_singleton, List.singleton_append,
    List.map_cons, Nat.ofDigits_cons]
  exact Nat.add_comm _ _

theorem foldlM_appendDigit?_eq_some_iff {digits : List Char} {n : Nat} :
    digits.foldlM appendDigit? 0 = some n ↔
      (∀ d ∈ digits, d.isDigit = true) ∧ decimal digits = n ∧ n < positionBound := by
  induction digits using List.reverseRecOn generalizing n with
  | nil =>
    simp only [List.foldlM_nil, List.not_mem_nil, false_implies, implies_true, true_and]
    constructor
    · rintro ⟨⟩
      exact ⟨rfl, positionBound_pos⟩
    · rintro ⟨rfl, -⟩
      rfl
  | append_singleton digits d ih =>
    rw [List.foldlM_append, decimal_append]
    simp only [List.foldlM_cons, List.foldlM_nil, bind_pure, Option.bind_eq_bind,
      Option.bind_eq_some_iff, ih, appendDigit?, Bool.and_eq_true, decide_eq_true_eq,
      Option.ite_none_right_eq_some, Option.some.injEq, List.mem_append, List.mem_singleton]
    constructor
    · rintro ⟨m, ⟨front, rfl, -⟩, ⟨last, bound⟩, rfl⟩
      refine ⟨?_, rfl, bound⟩
      rintro d' (hd' | rfl)
      · exact front d' hd'
      · exact last
    · rintro ⟨all, rfl, bound⟩
      refine ⟨_, ⟨fun d' hd' => all d' (.inl hd'), rfl, ?_⟩, ⟨all d (.inr rfl), bound⟩, rfl⟩
      omega

theorem digitsValue?_eq_some_iff {digits : List Char} {n : Nat} :
    digitsValue? digits = some n ↔
      digits ≠ [] ∧ (∀ d ∈ digits, d.isDigit = true) ∧ decimal digits = n ∧ n < positionBound := by
  unfold digitsValue?
  rw [Option.ite_none_left_eq_some, foldlM_appendDigit?_eq_some_iff, List.isEmpty_iff]

/-- What is read as a position is what spells one. -/
theorem positionValue?_eq_some_iff {text : String} {i : Nat} :
    positionValue? text = some i ↔ SpellsPosition text i := by
  unfold positionValue?
  constructor
  · intro h
    split at h
    case h_1 digits hs => exact ⟨digits, .inr hs, digitsValue?_eq_some_iff.mp h⟩
    case h_2 => exact ⟨_, .inl rfl, digitsValue?_eq_some_iff.mp h⟩
  · rintro ⟨digits, hs | hs, spelled⟩
    · have unsigned : ∀ ds, text.toList ≠ '+' :: ds := by
        rintro ds hds
        have plus : '+' ∈ digits := by
          rw [← hs, hds]
          exact List.mem_cons_self ..
        exact absurd (spelled.2.1 _ plus) (by decide)
      split
      case h_1 ds hds => exact absurd hds (unsigned ds)
      case h_2 =>
        rw [hs]
        exact digitsValue?_eq_some_iff.mpr spelled
    · simp only [hs]
      exact digitsValue?_eq_some_iff.mpr spelled

/-- A text spells one position at most. -/
theorem SpellsPosition.unique {text : String} {i j : Nat} (h : SpellsPosition text i)
    (h' : SpellsPosition text j) : i = j := by
  rw [← positionValue?_eq_some_iff] at h h'
  exact Option.some.inj (h.symm.trans h')

/-! ## Heads -/

namespace Operator

variable {c : Category}

theorem ofKeyword?_keyword (o : Operator c) : Category.ofKeyword? o.keyword = some c := by
  cases o <;> decide

/-- A keyword belongs to one operator of a category, or to one that takes concepts only and one that
takes as many roles. -/
theorem withKeyword_keyword (o : Operator c) :
    withKeyword c o.keyword = [o] ∨
      ∃ p q, withKeyword c o.keyword = [p, q] ∧ (o = p ∨ o = q) ∧
        p.firstCategory? = some .concept ∧ q.firstCategory? = some .role ∧
        ∃ k, p.signature = .replicate k (.element .concept) ∧
          q.signature = .replicate k (.element .role) := by
  cases o <;> first
    | exact .inl rfl
    | exact .inr ⟨_, _, rfl, .inl rfl, rfl, rfl, 1, rfl, rfl⟩
    | exact .inr ⟨_, _, rfl, .inr rfl, rfl, rfl, 1, rfl, rfl⟩
    | exact .inr ⟨_, _, rfl, .inl rfl, rfl, rfl, 2, rfl, rfl⟩
    | exact .inr ⟨_, _, rfl, .inr rfl, rfl, rfl, 2, rfl, rfl⟩

/-- The head of an operator's elements stands for the operator if the number of arguments is right
and the first argument tells the operator from the one that shares its keyword. -/
theorem ofHead_keyword {o : Operator c} {es : List Expression}
    (length : es.length = o.signature.length)
    (first : ∀ d, o.firstCategory? = some d →
      ∃ e rest, es = e :: rest ∧ Category.ofKeyword? e.name = some d) :
    ofHead c o.keyword es = .ok o := by
  unfold ofHead
  rcases o.withKeyword_keyword with single | ⟨p, q, pair, which, hp, hq, k, sp, sq⟩
  · simp [single, length]
  · have same : p.signature.length = q.signature.length := by simp [sp, sq]
    rcases which with rfl | rfl
    · obtain ⟨e, rest, rfl, he⟩ := first _ hp
      simp [pair, length, Expression.setCategory, he, hp, bind, Except.bind, pure, Except.pure]
    · obtain ⟨e, rest, rfl, he⟩ := first _ hq
      simp [pair, length, same, Expression.setCategory, he, hp, hq, bind, Except.bind, pure,
        Except.pure]

/-- The operator that a head with arguments stands for has that keyword and takes that many. -/
theorem ofHead_eq_ok {head : String} {es : List Expression} {o : Operator c}
    (h : ofHead c head es = .ok o) : o.keyword = head ∧ es.length = o.signature.length := by
  have keyword_of_mem : ∀ o' ∈ withKeyword c head, o'.keyword = head := fun o' ho' => by
    simpa using (List.mem_filter.mp ho').2
  unfold ofHead at h
  cases shared : withKeyword c head with
  | nil => simp [shared] at h
  | cons p others =>
    rw [shared] at keyword_of_mem h
    have hp := keyword_of_mem p (List.mem_cons_self ..)
    simp only at h
    split at h
    · cases h
    case isFalse length =>
    rcases p.withKeyword_keyword with single | ⟨p', q, pair, -, hp', hq, k, sp, sq⟩
    · rw [hp, shared] at single
      cases single
      cases h
      exact ⟨hp, by simpa using length⟩
    · rw [hp, shared] at pair
      cases pair
      have same : p.signature.length = q.signature.length := by simp [sp, sq]
      -- The choice is between the two operators, which take the same number of arguments.
      have chosen : o = p ∨ o = q := by
        cases es with
        | nil => exact .inl (by simpa using h.symm)
        | cons e rest =>
          cases hd : e.setCategory head with
          | error _ => simp [hd, bind, Except.bind] at h
          | ok d =>
            simp only [hd, bind, Except.bind, pure, Except.pure, Except.ok.injEq] at h
            cases hx : [p, q].find? fun o => o.firstCategory? == some d with
            | none => exact .inl (by simpa [hx] using h.symm)
            | some x =>
              have mem := List.mem_of_find?_eq_some hx
              rw [hx, Option.getD_some] at h
              subst h
              simpa using mem
      rcases chosen with rfl | rfl
      · exact ⟨hp, by simpa using length⟩
      · exact ⟨keyword_of_mem o (by simp), by simpa [same] using length⟩

end Operator

/-! ## Well-typed expressions -/

namespace Expression

mutual

/-- The expression is the term written as a tree: a keyword with arguments that are in range. -/
inductive Describes (v : Vocabulary) : {c : Category} → Expression → Term c → Prop where
  | node {c : Category} {o : Operator c} {es : List Expression} {ts : Args Term o.signature} :
      DescribeAll v es ts → (⟨o, ts⟩ : Node Term c).InRange →
      Describes v (.node o.keyword es) (.mk o ts)

/-- The expressions are the arguments one for one: names of entries and spelled positions without
arguments of their own, and elements written as trees. -/
inductive DescribeAll (v : Vocabulary) :
    {ps : List Parameter} → List Expression → Args Term ps → Prop where
  | nil : DescribeAll v [] .nil
  | predicate {ps : List Parameter} {es : List Expression} {ts : Args Term ps} {p : Predicate} :
      p ∈ v.predicates → DescribeAll v es ts →
      DescribeAll v (.leaf p.name :: es) (.predicate p ts)
  | constant {ps : List Parameter} {es : List Expression} {ts : Args Term ps} {k : Constant} :
      k ∈ v.constants → DescribeAll v es ts →
      DescribeAll v (.leaf k.name :: es) (.constant k ts)
  | position {ps : List Parameter} {es : List Expression} {ts : Args Term ps} {s : String}
      {i : Nat} :
      SpellsPosition s i → DescribeAll v es ts → DescribeAll v (.leaf s :: es) (.position i ts)
  | element {ps : List Parameter} {c : Category} {e : Expression} {es : List Expression}
      {t : Term c} {ts : Args Term ps} :
      Describes v e t → DescribeAll v es ts → DescribeAll v (e :: es) (.element t ts)

end

variable {v : Vocabulary} {c : Category} {ps : List Parameter} {e e' : Expression}
  {es : List Expression} {t : Term c} {ts : Args Term ps}

theorem Describes.ofKeyword?_name (h : e.Describes v t) : Category.ofKeyword? e.name = some c := by
  cases h with
  | @node _ o _ _ _ _ => exact o.ofKeyword?_keyword

theorem DescribeAll.length_eq (h : DescribeAll v es ts) : es.length = ps.length := by
  induction h using DescribeAll.rec (motive_1 := fun _ _ _ => True) <;> simp_all

theorem describeAll_predicate_iff {s : String} {p : Predicate} :
    DescribeAll v (.leaf s :: es) (.predicate p ts) ↔
      p ∈ v.predicates ∧ p.name = s ∧ DescribeAll v es ts := by
  constructor
  · rintro (_ | ⟨hp, hts⟩)
    exact ⟨hp, rfl, hts⟩
  · rintro ⟨hp, rfl, hts⟩
    exact .predicate hp hts

theorem describeAll_position_iff {s : String} {i : Nat} :
    DescribeAll v (.leaf s :: es) (.position i ts) ↔
      SpellsPosition s i ∧ DescribeAll v es ts := by
  constructor
  · rintro (_ | _ | _ | ⟨spelled, hts⟩)
    exact ⟨spelled, hts⟩
  · rintro ⟨spelled, hts⟩
    exact .position spelled hts

theorem describeAll_element_iff :
    DescribeAll v (e :: es) (.element t ts) ↔ e.Describes v t ∧ DescribeAll v es ts := by
  constructor
  · rintro (_ | _ | _ | _ | ⟨ht, hts⟩)
    exact ⟨ht, hts⟩
  · rintro ⟨ht, hts⟩
    exact .element ht hts

theorem DescribeAll.checkNames_eq (hv : v.Valid) (h : DescribeAll v es ts) :
    ts.checkNames v = .ok () := by
  induction h using DescribeAll.rec (motive_1 := fun _ _ _ => True) with
  | node => trivial
  | nil => rfl
  | predicate hp _ ih => exact Args.checkNames_predicate.mpr ⟨hv.ownsPredicate_iff.mpr hp, ih⟩
  | constant hk _ ih => exact Args.checkNames_constant.mpr ⟨hv.ownsConstant_iff.mpr hk, ih⟩
  | position _ _ ih | element _ _ _ ih => exact ih

/-- The head of a well-typed expression stands for the operator of what is described. -/
theorem DescribeAll.ofHead_eq {o : Operator c} {ts : Args Term o.signature}
    (h : DescribeAll v es ts) : Operator.ofHead c o.keyword es = .ok o := by
  refine Operator.ofHead_keyword h.length_eq fun d hd => ?_
  unfold Operator.firstCategory? at hd
  generalize o.signature = ps at *
  cases h with
  | @element _ c e es x _ hx _ =>
    cases hd
    exact ⟨e, es, rfl, hx.ofKeyword?_name⟩
  | _ => cases hd

/-! ## Exchanging arguments -/

/-- The keywords of the commutative operators. -/
def commutativeKeywords : List String := ["c_and", "c_or", "c_equal", "r_and", "r_or"]

mutual

/-- The expressions are equal up to exchanging the arguments of commutative operators. -/
inductive Exchange : Expression → Expression → Prop where
  /-- Exchanges inside the arguments. -/
  | arguments {name : String} {es es' : List Expression} :
      ExchangeAll es es' → Exchange (.node name es) (.node name es')
  /-- The exchange of the two arguments of a commutative operator. -/
  | swap {name : String} (e e' : Expression) :
      name ∈ commutativeKeywords → Exchange (.node name [e, e']) (.node name [e', e])
  /-- One exchange after the other. -/
  | trans {e e' e'' : Expression} : Exchange e e' → Exchange e' e'' → Exchange e e''

/-- The expressions are equal one for one up to exchanging. -/
inductive ExchangeAll : List Expression → List Expression → Prop where
  | nil : ExchangeAll [] []
  | cons {e e' : Expression} {es es' : List Expression} :
      Exchange e e' → ExchangeAll es es' → ExchangeAll (e :: es) (e' :: es')

end

/-- A name without arguments stays what it is. -/
theorem Exchange.eq_leaf {name : String} (h : Exchange (.leaf name) e) : e = .leaf name := by
  generalize hl : leaf name = l at h
  induction h using Exchange.rec (motive_2 := fun _ _ _ => True) with
  | arguments hes _ =>
    cases hl
    cases hes
    rfl
  | swap _ _ _ => cases hl
  | trans _ _ ih ih' =>
    have first := ih hl
    exact (ih' (hl.trans first.symm)).trans first
  | nil | cons => trivial

/-- The arguments of a commutative operator may be exchanged. -/
theorem describes_swap {o : Operator c} {ts : Args Term o.signature} {a b : Expression}
    (commutative : o.keyword ∈ commutativeKeywords) (h : DescribeAll v [a, b] ts) :
    Describes v (.node o.keyword [b, a]) (Term.ofNode (Node.swap ⟨o, ts⟩)) := by
  cases o with
  | andConcept | orConcept | equalConcept | andRole | orRole =>
    cases h with
    | element ha h =>
      cases h with
      | element hb h =>
        cases h
        exact .node (.element hb (.element ha .nil)) trivial
  | _ => exact absurd commutative (by decide)

/-- Exchanged arguments describe exchanged operands. -/
theorem Exchange.describes (h : Exchange e e') (ht : e.Describes v t) :
    ∃ t' : Term c, e'.Describes v t' ∧ t.Exchange t' := by
  induction h using Exchange.rec
    (motive_2 := fun es es' _ => ∀ {ps : List Parameter} {ts : Args Term ps},
      DescribeAll v es ts → ∃ ts', DescribeAll v es' ts' ∧ ts.Rel Term.Exchange ts')
    generalizing c t with
  | arguments _ ih =>
    cases ht with
    | node hts range =>
      obtain ⟨ts', hts', rel⟩ := ih hts
      refine ⟨.mk _ ts', .node hts' ?_, .operands rel⟩
      rw [← Node.checkPositions_eq_ok_iff, ← Node.checkPositions_eq rel,
        Node.checkPositions_eq_ok_iff]
      exact range
  | swap a b commutative =>
    cases ht with
    | @node _ o _ ts hts _ => exact ⟨_, describes_swap commutative hts, .swap ⟨o, ts⟩⟩
  | trans _ _ ih ih' =>
    obtain ⟨t', ht', first⟩ := ih ht
    obtain ⟨t'', ht'', second⟩ := ih' ht'
    exact ⟨t'', ht'', first.trans second⟩
  | nil =>
    rename_i hts
    cases hts
    exact ⟨.nil, .nil, .nil⟩
  | cons he _ ih ih' =>
    rename_i hts
    cases hts with
    | predicate hp hts =>
      obtain ⟨ts', hts', rel⟩ := ih' hts
      rw [he.eq_leaf]
      exact ⟨_, .predicate hp hts', .predicate _ rel⟩
    | constant hk hts =>
      obtain ⟨ts', hts', rel⟩ := ih' hts
      rw [he.eq_leaf]
      exact ⟨_, .constant hk hts', .constant _ rel⟩
    | position hi hts =>
      obtain ⟨ts', hts', rel⟩ := ih' hts
      rw [he.eq_leaf]
      exact ⟨_, .position hi hts', .position _ rel⟩
    | element ht hts =>
      obtain ⟨t', ht', exchange⟩ := ih ht
      obtain ⟨ts', hts', rel⟩ := ih' hts
      exact ⟨_, .element ht' hts', .element exchange rel⟩

end Expression

end DescLogic
