import DescLogic.Proofs.Expression.Grammar
import DescLogic.Proofs.Readable
/-!
# Reading what is printed

`Token.Spreads ts cs` says that the text `cs` is made of words of the tokens `ts`, with any blanks
before, between and after them. If no two names stand side by side, such a text falls into these
tokens again. An expression is `Legible` if each of its names is one token, and then it is read from
its written form, provided that it is not nested too deeply.

* `Token.Spreads.lexes`: the tokens of a text are those that it was made of.
* `Expression.Legible.exists_derives`: the written form of an expression is made of tokens that
  derive it.
* `Expression.parse_render`: reading undoes printing.
* `Expression.legible_of_parse`, `Expression.depth_le_of_parse`: what is read can be printed and
  read again.
-/

namespace DescLogic

open Token

namespace Token

variable {t : Token} {s : String} {c d : Char} {w cs ds rest : List Char} {ts us : List Token}

/-- The text is made of words of the tokens, with any blanks around them. -/
inductive Spreads : List Token → List Char → Prop where
  | nil : Spreads [] []
  | blank {c : Char} {ts : List Token} {cs : List Char} :
      isBlank c = true → Spreads ts cs → Spreads ts (c :: cs)
  | token {t : Token} {ts : List Token} {w cs : List Char} :
      Spelled t w → Spreads ts cs → Spreads (t :: ts) (w ++ cs)

theorem Spelled.spreads (h : Spelled t w) : Spreads [t] w := by
  simpa using Spreads.token h .nil

theorem Spreads.append (h : Spreads ts cs) (h' : Spreads us ds) :
    Spreads (ts ++ us) (cs ++ ds) := by
  induction h with
  | nil => exact h'
  | blank hc _ ih => exact .blank hc ih
  | token hw _ ih =>
    rw [List.append_assoc]
    exact .token hw ih

/-- Two names may not stand side by side. -/
def Apart (t t' : Token) : Prop := t.isName = false ∨ t'.isName = false

/-! ## Where a word ends -/

theorem goesOn_eq_false (h : isNamePart d = false) : goesOn c d = false := by
  have hd : d.isDigit = false := by
    rw [Bool.eq_false_iff] at h ⊢
    exact fun hd => h (isNamePart_of_isDigit hd)
  unfold goesOn
  split_ifs <;> first | exact h | exact hd | rfl

theorem isNamePart_of_isBlank (h : isBlank c = true) : isNamePart c = false := by
  rcases eq_of_isBlank h with rfl | rfl | rfl | rfl <;> decide

/-- A token that is no name is one character, which is in no name. -/
theorem Spelled.eq_singleton (h : Spelled t w) (ht : t.isName = false) :
    ∃ c, w = [c] ∧ isNamePart c = false ∧ ∀ d, Token.goesOn c d = false := by
  cases h with
  | opening | closing | comma =>
    exact ⟨_, rfl, by decide, fun d => by rw [goesOn_of_punctuation (by simp)]⟩
  | identifier | integer => cases ht

/-- A word is the longest if what follows does not go on with it. -/
theorem longest_append (h : Spelled t (c :: w)) (stop : ∀ d ∈ rest.head?, goesOn c d = false) :
    Longest (c :: w) (c :: w ++ rest) := by
  have hrest : rest.takeWhile (goesOn c) = [] := by
    cases rest with
    | nil => rfl
    | cons d rest => simp [stop d (by simp)]
  have hw : (w ++ rest).takeWhile (goesOn c) = w := by
    rw [List.takeWhile_append_of_pos fun d => h.goesOn, hrest, List.append_nil]
  have hl : Longest (c :: (w ++ rest).takeWhile (goesOn c)) (c :: (w ++ rest)) :=
    longest_takeWhile
  rwa [hw] at hl

/-- **A text made of tokens of which no two names are side by side falls into these tokens.** -/
theorem Spreads.lexes (h : Spreads ts cs) (apart : ts.IsChain Apart) : Lexes cs ts := by
  induction h with
  | nil => exact .nil
  | blank hc _ ih => exact .blank hc (ih apart)
  | @token t ts w cs hw hcs ih =>
    refine .token hw ?_ (ih apart.tail)
    obtain _ | ⟨c, w⟩ := w
    · exact absurd rfl hw.ne_nil
    refine longest_append hw fun d hd => ?_
    cases hcs with
    | nil => cases hd
    | blank hb _ =>
      cases hd
      exact goesOn_eq_false (isNamePart_of_isBlank hb)
    | @token t' ts w' cs hw' _ =>
      rcases (List.isChain_cons_cons.mp apart).1 with ht | ht'
      · obtain ⟨c', hc, -, stop⟩ := hw.eq_singleton ht
        cases hc
        exact stop d
      · obtain ⟨c', rfl, hc', -⟩ := hw'.eq_singleton ht'
        cases hd
        exact goesOn_eq_false hc'

/-- Every token of a text is spelled by some word. -/
theorem Lexes.exists_spelled (h : Lexes cs ts) : ∀ t ∈ ts, ∃ w, Spelled t w := by
  induction h with
  | nil => simp
  | blank _ _ ih => exact ih
  | token hw _ _ ih =>
    rintro t (_ | ⟨_, ht⟩)
    · exact ⟨_, hw⟩
    · exact ih t ht

/-- The word of a name is the name. -/
theorem Spelled.eq_toList (h : Spelled t w) (hs : t.Names s) : w = s.toList := by
  cases h <;> cases hs <;> simp

end Token

namespace Expression

variable {heads : Token → String → Prop} {n k : Nat} {ts us : List Token} {e : Expression}
  {es : List Expression} {text : String}

/-- Each name is one token. -/
inductive Legible : Expression → Prop where
  | node {t : Token} {s : String} {es : List Expression} :
      Spelled t s.toList → t.Names s → (∀ e ∈ es, Legible e) → Legible (.node s es)

/-! ## Depths -/

theorem depthAll_le_iff : depthAll es ≤ k ↔ ∀ e ∈ es, e.depth ≤ k := by
  induction es with
  | nil => simp [depthAll]
  | cons e es ih => rw [depthAll, Nat.max_le, ih, List.forall_mem_cons]

theorem depth_node_le_iff {s : String} : (node s es).depth ≤ k + 1 ↔ ∀ e ∈ es, e.depth ≤ k := by
  rw [depth, ← depthAll_le_iff]
  omega

theorem one_le_depth (e : Expression) : 1 ≤ e.depth := by
  cases e
  rw [depth]
  omega

/-- Parentheses that are nested at most `n` deep give at most one level more. -/
theorem Derives.depth_le (h : Derives heads n ts e) : e.depth ≤ n + 1 := by
  refine h.rec (motive_2 := fun n _ es _ => ∀ e ∈ es, e.depth ≤ n + 1) ?name ?group ?nil ?cons
  case name => exact fun _ => depth_node_le_iff.mpr (by simp)
  case nil => simp
  case group =>
    intro n t s ts us e es _ _ _ he hes
    exact depth_node_le_iff.mpr (List.forall_mem_cons.mpr ⟨he, hes⟩)
  case cons =>
    intro n ts us e es _ _ he hes
    exact List.forall_mem_cons.mpr ⟨he, hes⟩

/-! ## Printing -/

/-- What is derived from words has words for names. -/
theorem Derives.legible (h : Derives Token.Names n ts e) (hts : ∀ t ∈ ts, ∃ w, Spelled t w) :
    e.Legible := by
  have word : ∀ {t : Token} {s : String}, t.Names s → (∃ w, Spelled t w) → Spelled t s.toList := by
    rintro t s hs ⟨w, hw⟩
    exact hw.eq_toList hs ▸ hw
  refine h.rec (motive_1 := fun _ ts e _ => (∀ t ∈ ts, ∃ w, Spelled t w) → e.Legible)
    (motive_2 := fun _ us es _ => (∀ t ∈ us, ∃ w, Spelled t w) → ∀ e ∈ es, e.Legible)
    ?name ?group ?nil ?cons hts
  case name => exact fun hs hts => .node (word hs (hts _ (by simp))) hs (by simp)
  case nil => simp
  case group =>
    intro n t s ts us e es hs _ _ he hes hts
    refine .node (word hs (hts t (by simp))) hs (List.forall_mem_cons.mpr ⟨?_, ?_⟩)
    · exact he fun t ht => hts t (by simp [ht])
    · exact hes fun t ht => hts t (by simp [ht])
  case cons =>
    intro n ts us e es _ _ he hes hts
    refine List.forall_mem_cons.mpr ⟨?_, ?_⟩
    · exact he fun t ht => hts t (by simp [ht])
    · exact hes fun t ht => hts t (by simp [ht])

/-- The rest of a group is printed as tokens that derive it. -/
theorem exists_derivesRest
    (h : ∀ e ∈ es, ∃ ts, Derives Token.Names n ts e ∧ Spreads ts e.render.toList) :
    ∃ us, DerivesRest Token.Names n us es ∧
      Spreads (us ++ [.closing]) (restChars (es.map render)) := by
  induction es with
  | nil => exact ⟨[], .nil, Spelled.closing.spreads⟩
  | cons e es ih =>
    obtain ⟨ts, hts, spread⟩ := h e (by simp)
    obtain ⟨us, hus, spread'⟩ := ih fun e' he' => h e' (by simp [he'])
    refine ⟨.comma :: (ts ++ us), .cons hts hus, ?_⟩
    simpa [restChars] using (Spelled.comma.spreads.append spread).append spread'

/-- The written form of an expression is made of tokens that derive it. -/
theorem Legible.exists_derives (h : e.Legible) (hd : e.depth ≤ n + 1) :
    ∃ ts, Derives Token.Names n ts e ∧ Spreads ts e.render.toList := by
  induction h generalizing n with
  | @node t s es ht hs _ ih =>
    have deep := depth_node_le_iff.mp hd
    obtain _ | ⟨e, es⟩ := es
    · exact ⟨[t], .name hs, by simpa using ht.spreads⟩
    · obtain ⟨n, rfl⟩ : ∃ m, n = m + 1 := by
        have := e.one_le_depth.trans (deep e (by simp))
        exact ⟨n - 1, by omega⟩
      have printed : ∀ e' ∈ e :: es,
          ∃ ts, Derives Token.Names n ts e' ∧ Spreads ts e'.render.toList :=
        fun e' he' => ih e' he' (deep e' he')
      obtain ⟨ts, hts, spread⟩ := printed e (by simp)
      obtain ⟨us, hus, spread'⟩ := exists_derivesRest fun e' he' =>
        printed e' (List.mem_cons_of_mem e he')
      refine ⟨_, .group hs hts hus, ?_⟩
      rw [render_node, toList_applied]
      simpa [groupChars] using
        (ht.spreads.append Spelled.opening.spreads).append (spread.append spread')

/-- In the tokens of an expression no two names stand side by side. -/
theorem Derives.apart (h : Derives Token.Names n ts e) : ts.IsChain Apart :=
  h.isChain (fun _ _ _ h => h) (fun _ _ h => h) fun _ _ _ => .inr rfl

/-- **Reading undoes printing** for expressions that are legible and not nested too deeply. -/
theorem parse_render (h : e.Legible) (hd : e.depth ≤ maxDepth + 1) : parse e.render = .ok e := by
  obtain ⟨ts, hts, spread⟩ := h.exists_derives hd
  exact parse_eq_ok_iff.mpr ⟨ts, spread.lexes hts.apart, hts⟩

/-- What is read is legible. -/
theorem legible_of_parse (h : parse text = .ok e) : e.Legible := by
  obtain ⟨ts, hts, he⟩ := parse_eq_ok_iff.mp h
  exact he.legible hts.exists_spelled

/-- What is read is not nested too deeply. -/
theorem depth_le_of_parse (h : parse text = .ok e) : e.depth ≤ maxDepth + 1 := by
  obtain ⟨ts, -, he⟩ := parse_eq_ok_iff.mp h
  exact he.depth_le

end Expression

end DescLogic
