import DescLogic.Proofs.Description
import DescLogic.Proofs.Expression.Printing
/-!
# Places of elements in an expression

The keyword of an operator settles where elements are due among its arguments, and of which
category. Where two operators share a keyword, both categories are due for the first argument, and
the stem of the first argument settles the category of the others. Nothing is said of whether the
expressions at these places are well typed.

* `Expression.Stands A e B x`: if an element of a category in `A` is due where `e` stands, then `x`
  stands in `e` where one of a category in `B` is due.
* `Operator.mem_due_of_ofHead`: the operator that a head is read as takes a category that is due,
  and no other category that is due has the stem of the argument.
* `Stands.exists_describes`: in a well-typed expression every element place holds a well-typed
  expression of a category that is due.
-/

namespace DescLogic

variable {c d : Category} {v : Vocabulary} {e x : Expression} {es : List Expression} {i : Nat}

/-! ## What is due -/

/-- The first argument has the stem of the category that the operator takes first. -/
def Operator.Suits (o : Operator c) (es : List Expression) : Prop :=
  ∃ x ∈ es.head?, ∃ d ∈ o.firstCategory?, Category.ofKeyword? x.name = some d

namespace Expression

/-- The categories that are due for the argument numbered `i` where a head of category `c` is
applied to `es`: those that operators with this keyword take there. After the first argument only
the operator counts that the first argument suits, if there is one. -/
def due (c : Category) (head : String) (es : List Expression) (i : Nat) : Set Category :=
  {d | ∃ o : Operator c, o.keyword = head ∧ o.signature[i]? = some (.element d) ∧
    (i = 0 ∨ ∀ o' : Operator c, o'.keyword = head → o'.Suits es → o' = o)}

/-- If an element of a category in `A` is due where `e` stands, then `x` stands in `e` where one of
a category in `B` is due. -/
inductive Stands : Set Category → Expression → Set Category → Expression → Prop where
  /-- The expression stands in itself. -/
  | refl (A : Set Category) (e : Expression) : Stands A e A e
  /-- What stands in an argument of an operator that may head the expression. -/
  | argument {A B : Set Category} {c d : Category} {o : Operator c} {es : List Expression} {i : Nat}
      {a x : Expression} :
      c ∈ A → es.length = o.signature.length → es[i]? = some a →
      o.signature[i]? = some (.element d) → Stands (due c o.keyword es i) a B x →
      Stands A (.node o.keyword es) B x

end Expression

/-! ## Operators that share a keyword -/

namespace Operator

theorem eq_of_keyword_eq {o : Operator c} {o' : Operator d} (h : o.keyword = o'.keyword) :
    c = d := by
  have stem := o.ofKeyword?_keyword
  rw [h, o'.ofKeyword?_keyword] at stem
  exact (Option.some.inj stem).symm

theorem mem_withKeyword {head : String} {o : Operator c} :
    o ∈ withKeyword c head ↔ o.keyword = head := by
  simp [withKeyword, mem_all]

/-- Operators that share a keyword take equally many elements, each of them of one category. -/
theorem eq_or_signature_of_keyword_eq {o o' : Operator c} (h : o.keyword = o'.keyword) :
    o = o' ∨ ∃ k a b, a ≠ b ∧ o.signature = .replicate k (.element a) ∧
      o'.signature = .replicate k (.element b) := by
  have mem := mem_withKeyword.mpr h.symm
  rcases o.withKeyword_keyword with single | ⟨p, q, pair, which, -, -, k, hp, hq⟩
  · rw [single, List.mem_singleton] at mem
    exact .inl mem.symm
  · have which' : o' = p ∨ o' = q := by simpa [pair] using mem
    rcases which with rfl | rfl <;> rcases which' with rfl | rfl
    · exact .inl rfl
    · exact .inr ⟨k, .concept, .role, by decide, hp, hq⟩
    · exact .inr ⟨k, .role, .concept, by decide, hq, hp⟩
    · exact .inl rfl

theorem length_signature_eq {o o' : Operator c} (h : o.keyword = o'.keyword) :
    o.signature.length = o'.signature.length := by
  rcases eq_or_signature_of_keyword_eq h with rfl | ⟨k, a, b, -, ho, ho'⟩
  · rfl
  · rw [ho, ho', List.length_replicate, List.length_replicate]

/-- Operators that share a keyword take elements at the same places. -/
theorem exists_element_of_keyword_eq {o o' : Operator c} (h : o.keyword = o'.keyword)
    (hi : o.signature[i]? = some (.element d)) : ∃ d', o'.signature[i]? = some (.element d') := by
  rcases eq_or_signature_of_keyword_eq h with rfl | ⟨k, a, b, -, ho, ho'⟩
  · exact ⟨d, hi⟩
  · obtain ⟨lt, -⟩ := List.getElem?_eq_some_iff.mp hi
    rw [ho, List.length_replicate] at lt
    exact ⟨b, by rw [ho', List.getElem?_replicate_of_lt lt]⟩

/-- An operator that takes something else than an element has its keyword for itself. -/
theorem eq_of_keyword_eq_of_ne_element {o o' : Operator c} (h : o.keyword = o'.keyword)
    {p : Parameter} (hi : o.signature[i]? = some p) (other : ∀ d, p ≠ .element d) : o = o' := by
  rcases eq_or_signature_of_keyword_eq h with same | ⟨k, a, b, -, ho, -⟩
  · exact same
  · rw [ho] at hi
    have mem := List.mem_of_getElem? hi
    exact absurd (List.eq_of_mem_replicate mem) (other a)

theorem firstCategory?_eq_some_iff {o : Operator c} :
    o.firstCategory? = some d ↔ o.signature[0]? = some (.element d) := by
  unfold firstCategory?
  cases o.signature with
  | nil => simp
  | cons p ps => cases p <;> simp

/-- The first argument suits at most one of the operators that share a keyword. -/
theorem Suits.unique {o o' : Operator c} (h : o.Suits es) (h' : o'.Suits es)
    (same : o.keyword = o'.keyword) : o = o' := by
  obtain ⟨x, hx, d, hd, stem⟩ := h
  obtain ⟨x', hx', d', hd', stem'⟩ := h'
  cases hx.symm.trans hx'
  cases stem.symm.trans stem'
  rcases eq_or_signature_of_keyword_eq same with eq | ⟨k, a, b, ne, ho, ho'⟩
  · exact eq
  · have first := List.mem_of_getElem? (firstCategory?_eq_some_iff.mp hd)
    have first' := List.mem_of_getElem? (firstCategory?_eq_some_iff.mp hd')
    rw [ho] at first
    rw [ho'] at first'
    cases List.eq_of_mem_replicate first
    cases List.eq_of_mem_replicate first'
    exact absurd rfl ne

/-! ## The operator that a head is read as -/

/-- The ways in which reading a head with arguments ends. -/
inductive HeadOutcome (c : Category) (head : String) (es : List Expression) :
    Except Error (Operator c) → Prop where
  /-- No operator has the keyword. -/
  | unknown : (∀ o : Operator c, o.keyword ≠ head) →
      HeadOutcome c head es (.error (unexpectedKeyword c head))
  /-- There are more or fewer arguments than the operator takes. -/
  | argumentCount {o : Operator c} : o.keyword = head → es.length ≠ o.signature.length →
      HeadOutcome c head es (.error (.argumentCount head o.signature.length es.length))
  /-- Two operators share the keyword, and the first argument suits neither. -/
  | undecided {p q : Operator c} {x : Expression} {err : Error} :
      (∀ o : Operator c, o.keyword = head ↔ o = p ∨ o = q) → p.firstCategory? = some .concept →
      q.firstCategory? = some .role → es.length = p.signature.length → es[0]? = some x →
      x.setCategory head = .error err → HeadOutcome c head es (.error err)
  /-- The operator is the only one with the keyword, or the first argument suits it. -/
  | read {o : Operator c} : o.keyword = head → es.length = o.signature.length →
      (∀ o' : Operator c, o'.keyword = head → o' = o) ∨ o.Suits es → HeadOutcome c head es (.ok o)

theorem setCategory_eq_ok {head : String} (h : x.setCategory head = .ok d) :
    Category.ofKeyword? x.name = some d ∧ (d = .concept ∨ d = .role) := by
  unfold Expression.setCategory at h
  split at h <;> simp_all

theorem headOutcome_ofHead (c : Category) (head : String) (es : List Expression) :
    HeadOutcome c head es (ofHead c head es) := by
  unfold ofHead
  cases shared : withKeyword c head with
  | nil =>
    refine .unknown fun o ho => ?_
    rw [← mem_withKeyword, shared] at ho
    cases ho
  | cons o others =>
    have keyword : o.keyword = head := by simp [← mem_withKeyword, shared]
    by_cases length : es.length = o.signature.length
    case neg => simpa [length] using HeadOutcome.argumentCount keyword length
    rcases o.withKeyword_keyword with single | ⟨p, q, pair, -, hp, hq, k, sp, sq⟩
    · rw [keyword, shared] at single
      cases single
      have only : ∀ o' : Operator c, o'.keyword = head → o' = o := by
        intro o' ho'
        simpa [shared] using mem_withKeyword.mpr ho'
      simpa [length] using HeadOutcome.read keyword length (.inl only)
    · rw [keyword, shared] at pair
      cases pair
      have shared_iff : ∀ o' : Operator c, o'.keyword = head ↔ o' = o ∨ o' = q := by
        intro o'
        rw [← mem_withKeyword, shared, List.mem_pair]
      have keyword' : q.keyword = head := (shared_iff q).mpr (.inr rfl)
      have same : o.signature.length = q.signature.length := by simp [sp, sq]
      have some_first : es ≠ [] := by
        rintro rfl
        have takes := firstCategory?_eq_some_iff.mp hp
        rw [List.eq_nil_of_length_eq_zero length.symm] at takes
        cases takes
      obtain ⟨x, rest, rfl⟩ := List.exists_cons_of_ne_nil some_first
      cases chosen : x.setCategory head with
      | error err =>
        simpa [length, chosen, bind, Except.bind] using
          HeadOutcome.undecided shared_iff hp hq length rfl chosen
      | ok d =>
        obtain ⟨stem, rfl | rfl⟩ := setCategory_eq_ok chosen
        · have suits : o.Suits (x :: rest) := ⟨x, rfl, .concept, hp, stem⟩
          simpa [length, chosen, hp, bind, Except.bind, pure, Except.pure] using
            HeadOutcome.read keyword length (.inr suits)
        · have suits : q.Suits (x :: rest) := ⟨x, rfl, .role, hq, stem⟩
          simpa [length, chosen, hp, hq, bind, Except.bind, pure, Except.pure] using
            HeadOutcome.read keyword' (length.trans same) (.inr suits)

theorem eq_or_suits_of_ofHead {head : String} {o : Operator c} (h : ofHead c head es = .ok o) :
    (∀ o' : Operator c, o'.keyword = head → o' = o) ∨ o.Suits es := by
  have outcome := headOutcome_ofHead c head es
  rw [h] at outcome
  cases outcome with
  | read _ _ settled => exact settled

/-- The operator that a head is read as takes a category that is due, and no other category that is
due has the stem of the argument. -/
theorem mem_due_of_ofHead {head : String} {o : Operator c} (h : ofHead c head es = .ok o)
    (hx : es[i]? = some x) (hi : o.signature[i]? = some (.element d)) :
    d ∈ Expression.due c head es i ∧
      ∀ d' ∈ Expression.due c head es i, Category.ofKeyword? x.name = some d' → d' = d := by
  obtain ⟨keyword, -⟩ := ofHead_eq_ok h
  rcases eq_or_suits_of_ofHead h with only | suits
  · refine ⟨⟨o, keyword, hi, .inr fun o' ho' _ => only o' ho'⟩, ?_⟩
    rintro d' ⟨o', ho', hi', -⟩ -
    rw [only o' ho', hi] at hi'
    cases hi'
    rfl
  · refine ⟨⟨o, keyword, hi, .inr fun o' ho' suits' => ?_⟩, ?_⟩
    · exact suits'.unique suits (ho'.trans keyword.symm)
    · rintro d' ⟨o', ho', hi', first | settled⟩ stem
      · subst first
        obtain ⟨y, hy, d₀, hd₀, stem₀⟩ := suits
        rw [List.head?_eq_getElem?, hx] at hy
        cases hy
        cases stem.symm.trans stem₀
        cases hi.symm.trans (firstCategory?_eq_some_iff.mp hd₀)
        rfl
      · rw [← settled o keyword suits, hi] at hi'
        cases hi'
        rfl

end Operator

namespace Expression

variable {A B : Set Category}

/-! ## Places in expressions -/

theorem depth_argument_lt {head : String} (hx : es[i]? = some x) :
    x.depth < (node head es).depth := by
  have := depthAll_le_iff.mp le_rfl x (List.mem_of_getElem? hx)
  rw [depth]
  omega

theorem Stands.depth_le (h : e.Stands A B x) : x.depth ≤ e.depth := by
  induction h with
  | refl => exact le_rfl
  | argument _ _ hx _ _ ih => exact ih.trans (depth_argument_lt hx).le

/-- What stands in an argument is not the whole. -/
theorem Stands.ne_of_argument {head : String} {a : Expression} (h : a.Stands A B x)
    (ha : es[i]? = some a) : x ≠ node head es := by
  rintro rfl
  have inside := h.depth_le
  have whole : a.depth < (node head es).depth := depth_argument_lt ha
  omega

variable {ps : List Parameter} {ts : Args Term ps} {t : Term c}

/-- A well-typed expression is headed by an operator of its term's category. -/
theorem Describes.exists_operator {head : String}
    (h : Expression.Describes v (.node head es) t) :
    ∃ (o : Operator c) (ts : Args Term o.signature), o.keyword = head ∧ t = .mk o ts ∧
      DescribeAll v es ts ∧ (⟨o, ts⟩ : Node Term c).InRange := by
  cases h with
  | node hts range => exact ⟨_, _, rfl, rfl, hts, range⟩

/-- The expression is what the parameter asks for, and a term that it describes satisfies `P`. -/
def Fills (v : Vocabulary) (P : {c : Category} → Term c → Prop) (x : Expression) :
    Parameter → Prop
  | .predicate => ∃ p ∈ v.predicates, x = leaf p.name
  | .constant => ∃ k ∈ v.constants, x = leaf k.name
  | .position => ∃ s i, x = leaf s ∧ SpellsPosition s i
  | .element d => ∃ t : Term d, x.Describes v t ∧ P t

/-- Every argument is what its place asks for. -/
theorem DescribeAll.fills {P : {c : Category} → Term c → Prop} (h : DescribeAll v es ts)
    (all : ts.All P) {p : Parameter} (hx : es[i]? = some x) (hi : ps[i]? = some p) :
    x.Fills v P p := by
  induction h using DescribeAll.rec (motive_1 := fun _ _ _ => True) generalizing i with
  | node => trivial
  | nil => cases hx
  | predicate hp _ ih =>
    cases i with
    | zero =>
      cases hx
      cases hi
      exact ⟨_, hp, rfl⟩
    | succ i => exact ih (Args.all_predicate.mp all) hx hi
  | constant hk _ ih =>
    cases i with
    | zero =>
      cases hx
      cases hi
      exact ⟨_, hk, rfl⟩
    | succ i => exact ih (Args.all_constant.mp all) hx hi
  | position spelled _ ih =>
    cases i with
    | zero =>
      cases hx
      cases hi
      exact ⟨_, _, rfl, spelled⟩
    | succ i => exact ih (Args.all_position.mp all) hx hi
  | element ht _ _ ih =>
    obtain ⟨first, all⟩ := Args.all_element.mp all
    cases i with
    | zero =>
      cases hx
      cases hi
      exact ⟨_, ht, first⟩
    | succ i => exact ih all hx hi

/-- In a well-typed expression every element place holds a well-typed expression of a category that
is due. What holds of a term together with its operands holds of all these terms. -/
theorem Stands.exists_describes {P : {c : Category} → Term c → Prop}
    (operands : ∀ {c : Category} {o : Operator c} {ts : Args Term o.signature},
      P (.mk o ts) → ts.All P)
    (h : Stands A e B x) (hc : c ∈ A) (ht : e.Describes v t) (hP : P t) :
    ∃ d ∈ B, ∃ u : Term d, x.Describes v u ∧ P u := by
  induction h generalizing c with
  | refl => exact ⟨c, hc, t, ht, hP⟩
  | @argument A B c' d o es i a x _ _ hx hi _ ih =>
    obtain ⟨o', ts, keyword, rfl, hts, -⟩ := ht.exists_operator
    obtain rfl := Operator.eq_of_keyword_eq keyword
    obtain ⟨d', hi'⟩ := Operator.exists_element_of_keyword_eq keyword.symm hi
    obtain ⟨u, hu, hPu⟩ := hts.fills (operands hP) hx hi'
    have read := hts.ofHead_eq
    rw [keyword] at read
    exact ih (Operator.mem_due_of_ofHead read hx hi').1 hu hPu

end Expression

end DescLogic
