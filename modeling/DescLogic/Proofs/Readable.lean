import DescLogic.Proofs.Term
import DescLogic.Proofs.Vocabulary
import Mathlib.Data.List.Nodup
import Std.Data.String.ToNat
/-!
# Texts that can be read in one way

Names stand in a text as they are, so a name may look like the end of a term and the start of
another. Where no name holds a closing parenthesis, this cannot happen: the text of a term, followed
by a comma, by a closing parenthesis or by nothing, determines the term and what follows
(`Term.readsBack`). In particular terms with the same text are the same
(`Term.text_inj`).

The proof reads a text from the left. A keyword ends before the first character that is no letter
and no underscore, the digits of a position end before the first character that is no digit, and a
name with its positions ends before the first closing parenthesis.
-/

namespace DescLogic

/-! ## Reading from the left -/

section Lists

variable {α : Type} {p : α → Bool} {xs xs' ys ys' : List α} {a : α}

/-- A part that satisfies `p` ends before the first item that does not. -/
theorem span_append_inj (hx : ∀ x ∈ xs, p x = true) (hx' : ∀ x ∈ xs', p x = true)
    (hy : ∀ y ∈ ys.head?, p y = false) (hy' : ∀ y ∈ ys'.head?, p y = false)
    (h : xs ++ ys = xs' ++ ys') : xs = xs' ∧ ys = ys' := by
  induction xs generalizing xs' with
  | nil =>
    cases xs' with
    | nil => exact ⟨rfl, h⟩
    | cons x xs' =>
      have := hy x (by rw [show ys = x :: xs' ++ ys' from h]; rfl)
      rw [hx' x (List.mem_cons_self ..)] at this
      cases this
  | cons x xs ih =>
    cases xs' with
    | nil =>
      have := hy' x (by rw [show ys' = x :: xs ++ ys from h.symm]; rfl)
      rw [hx x (List.mem_cons_self ..)] at this
      cases this
    | cons x' xs' =>
      rw [List.forall_mem_cons] at hx hx'
      rw [List.cons_append, List.cons_append, List.cons.injEq] at h
      obtain ⟨rfl, rfl⟩ := ih hx.2 hx'.2 h.2
      exact ⟨by rw [h.1], rfl⟩

/-- A part without `a` ends before the first `a`. -/
theorem append_cons_inj [DecidableEq α] (hx : a ∉ xs) (hx' : a ∉ xs')
    (h : xs ++ a :: ys = xs' ++ a :: ys') : xs = xs' ∧ ys = ys' := by
  have spare : ∀ {zs : List α}, a ∉ zs → ∀ z ∈ zs, decide (z ≠ a) = true := by
    intro zs hz z hmem
    exact decide_eq_true fun h => hz (h ▸ hmem)
  have stop : ∀ {zs : List α}, ∀ z ∈ (a :: zs).head?, decide (z ≠ a) = false := by
    rintro zs z ⟨⟩
    exact decide_eq_false (not_not_intro rfl)
  obtain ⟨same, rest⟩ := span_append_inj (spare hx) (spare hx') stop stop h
  exact ⟨same, (List.cons.inj rest).2⟩

/-- A part without `a` starts after the last `a`. -/
theorem append_cons_inj_right [DecidableEq α] (hy : a ∉ ys) (hy' : a ∉ ys')
    (h : xs ++ a :: ys = xs' ++ a :: ys') : xs = xs' ∧ ys = ys' := by
  have reversed : ys.reverse ++ a :: xs.reverse = ys'.reverse ++ a :: xs'.reverse := by
    simpa using congrArg List.reverse h
  obtain ⟨hys, hxs⟩ := append_cons_inj (by simpa using hy) (by simpa using hy') reversed
  exact ⟨List.reverse_injective hxs, List.reverse_injective hys⟩

end Lists

/-! ## Keywords and positions -/

/-- The characters of keywords. -/
def isKeywordPart (c : Char) : Bool := c.isAlpha || c == '_'

/-- The first letter of the keywords of a category. -/
def Category.letter : Category → Char
  | .concept => 'c'
  | .role => 'r'
  | .numerical => 'n'
  | .boolean => 'b'

/-- What may follow a term: a comma, a closing parenthesis or nothing. -/
def Stops (r : List Char) : Prop := ∀ c ∈ r.head?, c = ',' ∨ c = ')'

theorem Stops.nil : Stops [] := by simp [Stops]

theorem Stops.comma {r : List Char} : Stops (',' :: r) := by simp [Stops]

theorem Stops.closing {r : List Char} : Stops (')' :: r) := by simp [Stops]

namespace Operator

variable {c d : Category}

theorem isKeywordPart_of_mem (o : Operator c) :
    ∀ ch ∈ o.keyword.toList, isKeywordPart ch = true := by
  apply List.all_eq_true.mp
  cases o <;> decide

theorem head?_keyword (o : Operator c) : o.keyword.toList.head? = some c.letter := by
  cases o <;> decide

theorem rule_eq_of_keyword_eq {o : Operator c} {o' : Operator d} (h : o.keyword = o'.keyword) :
    o.rule = o'.rule := by
  have keywords : (Rule.all.map Rule.keyword).Nodup := by decide
  exact List.inj_on_of_nodup_map keywords (Rule.mem_all _) (Rule.mem_all _) h

/-- Operators that share their keyword differ in the category of their first argument. -/
theorem eq_or_of_rule_eq {o o' : Operator c} (h : o.rule = o'.rule) :
    o = o' ∨ ∃ d ps d' ps', o.signature = .element d :: ps ∧ o'.signature = .element d' :: ps' ∧
      d.letter ≠ d'.letter := by
  cases o <;> cases o' <;> first
    | exact .inl rfl
    | exact .inr ⟨_, _, _, _, rfl, rfl, by decide⟩
    | cases h

end Operator

theorem digits_of_position {i : Nat} : ∀ ch ∈ (toString i).toList, ch.isDigit = true := by
  intro ch hch
  exact Nat.isDigit_of_mem_toDigits (by decide) (by decide) (Nat.toList_repr ▸ hch)

/-! ## Groups -/

/-- What follows the first argument of a group: the others, each after a comma, and the closing
parenthesis. -/
def restChars : List String → List Char
  | [] => [')']
  | s :: texts => ',' :: (s.toList ++ restChars texts)

/-- The arguments in parentheses; nothing if there are none. -/
def groupChars : List String → List Char
  | [] => []
  | s :: texts => '(' :: (s.toList ++ restChars texts)

theorem toList_applied (head : String) (args : List String) :
    (Text.applied head args).toList = head.toList ++ groupChars args := by
  have rest : ∀ texts : List String,
      (String.join (texts.map ("," ++ ·))).toList ++ [')'] = restChars texts := by
    intro texts
    induction texts with
    | nil => rfl
    | cons s texts ih => simp [restChars, ← ih, String.join_cons]
  cases args with
  | nil => simp [groupChars]
  | cons s texts => simp [Text.applied, Text.joined_cons, groupChars, ← rest]

theorem restChars_stops {texts : List String} {r : List Char} : Stops (restChars texts ++ r) := by
  cases texts with
  | nil => exact .closing
  | cons s texts => exact .comma

/-- The first argument's start is the only difference between a group and its rest. -/
theorem rest_append_eq_of_group {s s' : String} {l l' : List String} {r r' : List Char}
    (h : groupChars (s :: l) ++ r = groupChars (s' :: l') ++ r') :
    restChars (s :: l) ++ r = restChars (s' :: l') ++ r' := by
  simpa [groupChars, restChars] using h

namespace Term

variable {c : Category} {v : Vocabulary} {r r' : List Char}

theorem toList_text_mk (o : Operator c) (args : Args Term o.signature) :
    (mk o args).text.toList = o.keyword.toList ++ groupChars (args.texts text) := by
  rw [show mk o args = ofNode ⟨o, args⟩ from rfl, text_ofNode]
  exact toList_applied _ _

theorem head?_text (t : Term c) : t.text.toList.head? = some c.letter := by
  obtain ⟨o, args⟩ := t
  rw [toList_text_mk, List.head?_append, o.head?_keyword]
  rfl

/-- The text of `t`, followed by a comma, a closing parenthesis or nothing, determines `t` and what
follows. -/
def ReadsBack (v : Vocabulary) (t : Term c) : Prop :=
  ∀ {t' : Term c} {r r' : List Char}, t'.Fits v → Stops r → Stops r' →
    t.text.toList ++ r = t'.text.toList ++ r' → t = t' ∧ r = r'

end Term

/-! ## Positions after a name -/

namespace Args

variable {ps : List Parameter}

theorem position_append_inj {i j : Nat} {r r' : List Char} (hr : Stops r) (hr' : Stops r')
    (h : (toString i).toList ++ r = (toString j).toList ++ r') : i = j ∧ r = r' := by
  have stop : ∀ {r : List Char}, Stops r → ∀ ch ∈ r.head?, ch.isDigit = false := by
    intro r hr ch hch
    rcases hr ch hch with rfl | rfl <;> rfl
  obtain ⟨digits, rest⟩ :=
    span_append_inj digits_of_position digits_of_position (stop hr) (stop hr') h
  exact ⟨Nat.repr_inj.mp (String.toList_injective digits), rest⟩

theorem not_mem_digits {i : Nat} {ch : Char} (hch : ch.isDigit = false) :
    ch ∉ (toString i).toList := by
  intro hmem
  rw [digits_of_position ch hmem] at hch
  cases hch

/-- Positions at the end of a group are read from the right. -/
theorem positions_append_inj (positions : ∀ p ∈ ps, p = .position) {a b : Args Term ps}
    {x x' : List Char}
    (h : x ++ restChars (a.texts Term.text) = x' ++ restChars (b.texts Term.text)) :
    x = x' ∧ a = b := by
  induction a generalizing x x' with
  | nil =>
    cases b
    exact ⟨List.append_cancel_right h, rfl⟩
  | position i rest ih =>
    cases b with
    | position j rest' =>
      rw [List.forall_mem_cons] at positions
      have moved : (x ++ ',' :: (toString i).toList) ++ restChars (rest.texts Term.text) =
          (x' ++ ',' :: (toString j).toList) ++ restChars (rest'.texts Term.text) := by
        simpa [texts, restChars] using h
      obtain ⟨first, rfl⟩ := ih positions.2 moved
      obtain ⟨rfl, digits⟩ := append_cons_inj_right (not_mem_digits rfl) (not_mem_digits rfl) first
      rw [Nat.repr_inj.mp (String.toList_injective digits)]
      exact ⟨rfl, rfl⟩
  | predicate | constant | element => cases positions _ (List.mem_cons_self ..)

/-- Positions end at the first closing parenthesis. -/
theorem exists_restChars_positions (positions : ∀ p ∈ ps, p = .position) (a : Args Term ps) :
    ∃ l, restChars (a.texts Term.text) = l ++ [')'] ∧ ')' ∉ l := by
  induction a with
  | nil => exact ⟨[], rfl, by simp⟩
  | position i rest ih =>
    rw [List.forall_mem_cons] at positions
    obtain ⟨l, hl, hmem⟩ := ih positions.2
    refine ⟨',' :: ((toString i).toList ++ l), by simp [texts, restChars, hl], ?_⟩
    have digits : ')' ∉ (toString i).toList := not_mem_digits rfl
    simp only [List.mem_cons, List.mem_append, not_or]
    exact ⟨by decide, digits, hmem⟩
  | predicate | constant | element => cases positions _ (List.mem_cons_self ..)

/-- A name and the positions after it are read up to the first closing parenthesis. -/
theorem name_append_inj (positions : ∀ p ∈ ps, p = .position) {a b : Args Term ps}
    {name name' r r' : List Char} (hname : ')' ∉ name) (hname' : ')' ∉ name')
    (h : name ++ (restChars (a.texts Term.text) ++ r) =
      name' ++ (restChars (b.texts Term.text) ++ r')) : name = name' ∧ a = b ∧ r = r' := by
  obtain ⟨l, hl, hmem⟩ := exists_restChars_positions positions a
  obtain ⟨l', hl', hmem'⟩ := exists_restChars_positions positions b
  have whole : (name ++ l) ++ ')' :: r = (name' ++ l') ++ ')' :: r' := by
    simpa [hl, hl'] using h
  obtain ⟨front, rfl⟩ := append_cons_inj (by simp [hname, hmem]) (by simp [hname', hmem']) whole
  have : name ++ restChars (a.texts Term.text) = name' ++ restChars (b.texts Term.text) := by
    rw [hl, hl', ← List.append_assoc, ← List.append_assoc, front]
  obtain ⟨rfl, rfl⟩ := positions_append_inj positions this
  exact ⟨rfl, rfl, rfl⟩

/-- Elements and positions are read from the left. -/
theorem elements_append_inj {v : Vocabulary} (plain : ∀ p ∈ ps, p ≠ .predicate ∧ p ≠ .constant)
    {a b : Args Term ps} (ha : a.All (Term.ReadsBack v)) (hb : b.All (Term.Fits v))
    {r r' : List Char}
    (h : restChars (a.texts Term.text) ++ r = restChars (b.texts Term.text) ++ r') :
    a = b ∧ r = r' := by
  induction a with
  | nil =>
    cases b
    exact ⟨rfl, (List.cons.inj h).2⟩
  | position i rest ih =>
    cases b with
    | position j rest' =>
      rw [List.forall_mem_cons] at plain
      have moved : (toString i).toList ++ (restChars (rest.texts Term.text) ++ r) =
          (toString j).toList ++ (restChars (rest'.texts Term.text) ++ r') := by
        simpa [texts, restChars] using h
      obtain ⟨rfl, tail⟩ := position_append_inj restChars_stops restChars_stops moved
      obtain ⟨rfl, rfl⟩ := ih plain.2 (all_position.mp ha) (all_position.mp hb) tail
      exact ⟨rfl, rfl⟩
  | element t rest ih =>
    cases b with
    | element t' rest' =>
      rw [List.forall_mem_cons] at plain
      obtain ⟨ht, hrest⟩ := all_element.mp ha
      obtain ⟨ht', hrest'⟩ := all_element.mp hb
      have moved : t.text.toList ++ (restChars (rest.texts Term.text) ++ r) =
          t'.text.toList ++ (restChars (rest'.texts Term.text) ++ r') := by
        simpa [texts, restChars] using h
      obtain ⟨rfl, tail⟩ := ht ht' restChars_stops restChars_stops moved
      obtain ⟨rfl, rfl⟩ := ih plain.2 hrest hrest' tail
      exact ⟨rfl, rfl⟩
  | predicate => exact absurd rfl (plain _ (List.mem_cons_self ..)).1
  | constant => exact absurd rfl (plain _ (List.mem_cons_self ..)).2

end Args

/-! ## Terms -/

/-- No name of the vocabulary holds a closing parenthesis. -/
structure Vocabulary.Readable (v : Vocabulary) : Prop where
  /-- The names of predicates. -/
  predicates : ∀ p ∈ v.predicates, ')' ∉ p.name.toList
  /-- The names of constants. -/
  constants : ∀ k ∈ v.constants, ')' ∉ k.name.toList

/-- A signature with a name starts with it and lists positions after it. -/
def Operator.NameFirst : List Parameter → Prop
  | .predicate :: ps | .constant :: ps => ∀ p ∈ ps, p = .position
  | ps => ∀ p ∈ ps, p ≠ .predicate ∧ p ≠ .constant

theorem Operator.nameFirst_signature {c : Category} (o : Operator c) :
    NameFirst o.signature := by
  cases o <;> simp [signature, NameFirst]

namespace Term

variable {c : Category} {v : Vocabulary}

theorem group_append_inj (hv : v.Valid) (readable : v.Readable) {ps : List Parameter}
    (shape : Operator.NameFirst ps) {a b : Args Term ps} (ha : a.All (ReadsBack v))
    (hb : b.All (Fits v)) (na : a.checkNames v = .ok ()) (nb : b.checkNames v = .ok ())
    {r r' : List Char}
    (h : groupChars (a.texts text) ++ r = groupChars (b.texts text) ++ r') :
    a = b ∧ r = r' := by
  cases a with
  | nil =>
    cases b
    exact ⟨rfl, h⟩
  | predicate p rest =>
    cases b with
    | predicate p' rest' =>
      have hp := hv.ownsPredicate_iff.mp (Args.checkNames_predicate.mp na).1
      have hp' := hv.ownsPredicate_iff.mp (Args.checkNames_predicate.mp nb).1
      have inner : p.name.toList ++ (restChars (rest.texts text) ++ r) =
          p'.name.toList ++ (restChars (rest'.texts text) ++ r') := by
        simpa [Args.texts, groupChars] using h
      obtain ⟨name, rfl, rfl⟩ := Args.name_append_inj shape (readable.predicates p hp)
        (readable.predicates p' hp') inner
      rw [hv.predicate_name hp hp' (String.toList_injective name)]
      exact ⟨rfl, rfl⟩
  | constant k rest =>
    cases b with
    | constant k' rest' =>
      have hk := hv.ownsConstant_iff.mp (Args.checkNames_constant.mp na).1
      have hk' := hv.ownsConstant_iff.mp (Args.checkNames_constant.mp nb).1
      have inner : k.name.toList ++ (restChars (rest.texts text) ++ r) =
          k'.name.toList ++ (restChars (rest'.texts text) ++ r') := by
        simpa [Args.texts, groupChars] using h
      obtain ⟨name, rfl, rfl⟩ := Args.name_append_inj shape (readable.constants k hk)
        (readable.constants k' hk') inner
      rw [hv.constant_name hk hk' (String.toList_injective name)]
      exact ⟨rfl, rfl⟩
  | position i rest =>
    cases b with
    | position j rest' => exact Args.elements_append_inj shape ha hb (rest_append_eq_of_group h)
  | element t rest =>
    cases b with
    | element t' rest' => exact Args.elements_append_inj shape ha hb (rest_append_eq_of_group h)

theorem groupChars_head? {ps : List Parameter} {a : Args Term ps} {r : List Char} (hr : Stops r) :
    ∀ ch ∈ (groupChars (a.texts text) ++ r).head?, isKeywordPart ch = false := by
  intro ch hch
  cases h : a.texts text with
  | nil =>
    rw [h] at hch
    rcases hr ch hch with rfl | rfl <;> rfl
  | cons s l =>
    rw [h] at hch
    cases hch
    rfl

/-- A group whose first argument is an element starts with the letter of its category. -/
theorem groupChars_letter {d : Category} {ps ps' : List Parameter} (hps : ps = .element d :: ps')
    (a : Args Term ps) : ∃ l, groupChars (a.texts text) = '(' :: d.letter :: l := by
  subst hps
  cases a with
  | element t rest =>
    obtain ⟨l, hl⟩ := List.head?_eq_some_iff.mp t.head?_text
    exact ⟨l ++ restChars (rest.texts text), by simp [Args.texts, groupChars, hl]⟩

theorem readsBack (hv : v.Valid) (readable : v.Readable) {t : Term c} (ht : t.Fits v) :
    t.ReadsBack v := by
  induction t using Term.induction with
  | mk o args ih =>
    intro t' r r' ht' hr hr' h
    cases ht with
    | mk names _ operands =>
      cases ht' with
      | @mk _ o' args' names' _ operands' =>
        rw [toList_text_mk, toList_text_mk, List.append_assoc, List.append_assoc] at h
        obtain ⟨keyword, group⟩ := span_append_inj o.isKeywordPart_of_mem o'.isKeywordPart_of_mem
          (groupChars_head? hr) (groupChars_head? hr') h
        have rule := Operator.rule_eq_of_keyword_eq (String.toList_injective keyword)
        rcases Operator.eq_or_of_rule_eq rule with rfl | ⟨d, ps, d', ps', hps, hps', letters⟩
        · have back : args.All (ReadsBack v) := (ih.and operands).imp fun h => h.1 h.2
          obtain ⟨rfl, rfl⟩ := group_append_inj hv readable o.nameFirst_signature back operands'
            names names' group
          exact ⟨rfl, rfl⟩
        · obtain ⟨l, hl⟩ := groupChars_letter hps args
          obtain ⟨l', hl'⟩ := groupChars_letter hps' args'
          rw [hl, hl'] at group
          exact absurd (List.cons.inj (List.cons.inj group).2).1 letters

/-- Where no name holds a closing parenthesis, terms with the same text are the same. -/
theorem text_inj (hv : v.Valid) (readable : v.Readable) {t t' : Term c} (ht : t.Fits v)
    (ht' : t'.Fits v) (h : t.text = t'.text) : t = t' :=
  (readsBack hv readable ht ht' .nil .nil (by rw [h])).1

end Term

end DescLogic
