import DescLogic.Proofs.Expression.Printing
/-!
# Reading a text with blanks, and the cap on nesting

`Expression.Nests k e` says that `k` groups are nested in the expression. Blanks between the tokens
of the written form mean nothing, and the cap decides alone whether such a text is read.

* `Expression.Derives.refuses`: the reader stops inside what is nested too deeply, at the group that
  opens when `maxDepth` others are open.
* `Expression.parse_spread`: whatever the blanks, the expression is read from its tokens if no more
  than `maxDepth` groups are nested in it, and refused as too deep otherwise.
-/

namespace DescLogic

open Token

namespace Expression

variable {heads : Token → String → Prop} {k m n : Nat} {t : Token} {ts us : List Token}
  {s text : String} {e : Expression} {es : List Expression}

/-- A chain of `k` nodes with children, each a child of the one before, starts at the
expression. -/
inductive Nests : Nat → Expression → Prop where
  | zero {e : Expression} : Nests 0 e
  | succ {k : Nat} {s : String} {es : List Expression} {e : Expression} :
      e ∈ es → Nests k e → Nests (k + 1) (.node s es)

/-- The longest chain has one node less than there are levels. -/
theorem nests_iff : e.Nests k ↔ k + 1 ≤ e.depth := by
  constructor
  · intro h
    induction h with
    | zero => exact one_le_depth _
    | @succ k s es e he _ ih =>
      have hle : e.depth ≤ depthAll es := depthAll_le_iff.mp le_rfl e he
      rw [depth]
      omega
  · intro h
    induction k generalizing e with
    | zero => exact .zero
    | succ k ih =>
      obtain ⟨s, es⟩ := e
      obtain ⟨e, he, hd⟩ : ∃ e ∈ es, k < e.depth := by
        by_contra hall
        push Not at hall
        have := depth_node_le_iff (s := s).mpr hall
        omega
      exact .succ he (ih hd)

/-- No chain is longer than `n` exactly if there are at most `n + 1` levels. -/
theorem forall_nests_le_iff : (∀ k, e.Nests k → k ≤ n) ↔ e.depth ≤ n + 1 := by
  simp only [nests_iff]
  constructor
  · intro h
    have := h (e.depth - 1) (by have := e.one_le_depth; omega)
    omega
  · intro h k hk
    omega

/-- A derivation needs no more nesting than the expression has. -/
theorem Derives.of_depth_le (h : Derives heads n ts e) (hd : e.depth ≤ m + 1) :
    Derives heads m ts e := by
  refine h.rec (motive_1 := fun _ ts e _ => ∀ m, e.depth ≤ m + 1 → Derives heads m ts e)
    (motive_2 := fun _ us es _ => ∀ m, depthAll es ≤ m + 1 → DerivesRest heads m us es)
    ?name ?group ?nil ?cons m hd
  case name => exact fun ht _ _ => .name ht
  case nil => exact fun _ _ => .nil
  case group =>
    intro n t s ts us e es ht _ _ ihe ihes m hd
    have := e.one_le_depth
    simp only [depth, depthAll] at hd
    obtain ⟨m, rfl⟩ : ∃ m', m = m' + 1 := ⟨m - 1, by omega⟩
    exact .group ht (ihe m (by omega)) (ihes m (by omega))
  case cons =>
    intro n ts us e es _ _ ihe ihes m hd
    rw [depthAll] at hd
    exact .cons (ihe m (by omega)) (ihes m (by omega))

/-! ## What is nested too deeply -/

/-- The reader stops in the tokens of the expression if it is too deep for the open groups. -/
def Refuses (ts : List Token) (e : Expression) : Prop :=
  ∀ (stack : List OpenGroup) (ls₁ ls₂ : List Lexeme),
    stack.length ≤ maxDepth → maxDepth + 1 < stack.length + e.depth →
    ls₁.map Lexeme.token = ts →
    ∃ l, readName stack (ls₁ ++ ls₂) = .error (.tooDeep, some l)

/-- In an open group the reader stops in the tokens of the expressions if one of them is too
deep. -/
def RefusesRest (us : List Token) (es : List Expression) : Prop :=
  ∀ (g : OpenGroup) (outer : List OpenGroup) (e : Expression) (ls₁ ls₂ : List Lexeme),
    (g :: outer).length ≤ maxDepth → maxDepth + 1 < (g :: outer).length + depthAll es →
    ls₁.map Lexeme.token = us →
    ∃ l, readRest (g :: outer) e false (ls₁ ++ ls₂) = .error (.tooDeep, some l)

theorem readRest_tooDeep {stack : List OpenGroup} {l : Lexeme} {ls : List Lexeme}
    (hl : l.token = .opening) (hd : stack.length = maxDepth) :
    readRest stack e true (l :: ls) = .error (.tooDeep, some l) := by
  rw [readRest.eq_def]
  simp [hl, hd]

/-- The first expression in a group is too deep, or it is taken and a later one is too deep. -/
theorem refuses_items (hts : Derives Token.Names n ts e) (he : Refuses ts e)
    (hus : DerivesRest heads m us es) (hes : RefusesRest us es) {g : OpenGroup}
    {outer : List OpenGroup} {ls₁ ls₂ rest : List Lexeme} (hroom : (g :: outer).length ≤ maxDepth)
    (hdeep : maxDepth + 1 < (g :: outer).length + depthAll (e :: es))
    (hls₁ : ls₁.map Lexeme.token = ts) (hls₂ : ls₂.map Lexeme.token = us) :
    ∃ l, readName (g :: outer) (ls₁ ++ (ls₂ ++ rest)) = .error (.tooDeep, some l) := by
  rw [depthAll] at hdeep
  by_cases hfits : maxDepth + 1 < (g :: outer).length + e.depth
  · exact he _ _ _ hroom hfits hls₁
  · have := e.one_le_depth
    have hfirst : Derives Token.Names (maxDepth - (g :: outer).length) ts e :=
      hts.of_depth_le (by omega)
    have hcomma : ∀ l ∈ (ls₂ ++ rest).head?, l.token ≠ .opening := by
      cases hus with
      | nil => rw [depthAll] at hdeep; omega
      | cons =>
        obtain ⟨l, ls, rfl, hl, -⟩ := List.map_eq_cons_iff.mp hls₂
        simp [hl]
    rw [hfirst.takes _ ls₁ (ls₂ ++ rest) (Nat.sub_add_cancel hroom).le hls₁ hcomma]
    exact hes _ _ _ _ _ hroom (by omega) hls₂

theorem refuses_group (ht : t.Names s) (hts : Derives Token.Names n ts e) (he : Refuses ts e)
    (hus : DerivesRest heads m us es) (hes : RefusesRest us es) :
    Refuses (t :: .opening :: (ts ++ (us ++ [.closing]))) (.node s (e :: es)) := by
  intro stack ls₁ ls₂ hroom hdeep htokens
  obtain ⟨l, _, rfl, rfl, hls⟩ := List.map_eq_cons_iff.mp htokens
  obtain ⟨o, _, rfl, ho, hls⟩ := List.map_eq_cons_iff.mp hls
  obtain ⟨ls₃, _, rfl, hls₃, hls⟩ := List.map_eq_append_iff.mp hls
  obtain ⟨ls₄, ls₅, rfl, hls₄, -⟩ := List.map_eq_append_iff.mp hls
  simp only [List.cons_append, List.append_assoc, readName_cons ht]
  by_cases hfull : stack.length = maxDepth
  · exact ⟨o, readRest_tooDeep ho hfull⟩
  · rw [readRest_opening ho hfull]
    rw [depth] at hdeep
    refine refuses_items hts he hus hes ?_ ?_ hls₃ hls₄ <;> rw [List.length_cons] <;> omega

theorem refusesRest_cons (hts : Derives Token.Names n ts e) (he : Refuses ts e)
    (hus : DerivesRest heads m us es) (hes : RefusesRest us es) :
    RefusesRest (.comma :: (ts ++ us)) (e :: es) := by
  intro g outer e₀ ls₁ ls₂ hroom hdeep hls
  obtain ⟨c, _, rfl, hc, hls⟩ := List.map_eq_cons_iff.mp hls
  obtain ⟨ls₃, ls₄, rfl, hls₃, hls₄⟩ := List.map_eq_append_iff.mp hls
  rw [List.cons_append, List.append_assoc, readRest_comma hc]
  exact refuses_items hts he hus hes hroom hdeep hls₃ hls₄

/-- What is derived is refused where it is too deep: the expressions before the deep one are taken,
and the groups around it opened. -/
theorem Derives.refuses (h : Derives Token.Names n ts e) : Refuses ts e := by
  refine h.rec (motive_2 := fun _ us es _ => RefusesRest us es) ?name ?group ?nil ?cons
  case name =>
    intro n t s ht stack ls₁ ls₂ hroom hdeep
    simp only [leaf, depth, depthAll] at hdeep
    omega
  case nil =>
    intro n g outer e ls₁ ls₂ hroom hdeep
    rw [depthAll] at hdeep
    omega
  case group => exact fun ht hts hus he hes => refuses_group ht hts he hus hes
  case cons => exact fun hts hus he hes => refusesRest_cons hts he hus hes

/-- A text of tokens that derive an expression nested too deeply is refused for that. -/
theorem parse_tooDeep (hts : Token.Lexes text.toList ts) (h : Derives Token.Names n ts e)
    (hd : maxDepth + 1 < e.depth) :
    ∃ offset, parse text = .error (.unreadable .tooDeep offset text) := by
  obtain ⟨ls, hls, rfl⟩ := hts.lexFrom 0
  obtain ⟨l, hl⟩ := h.refuses [] ls [] (Nat.zero_le _) (by simpa using hd) rfl
  refine ⟨l.offset, ?_⟩
  rw [List.append_nil] at hl
  simp [parse, Token.lex, hls, hl, bind, Except.bind]

/-! ## Blanks -/

/-- **Reading undoes printing, whatever blanks stand between the tokens.** The written form of a
legible expression falls into tokens `ts`. A text made of these tokens with blanks around them is
read as the expression if no chain of nested groups is longer than `maxDepth`, and it is malformed,
namely nested too deeply, if there is a longer one. -/
theorem parse_spread (h : e.Legible) :
    ∃ ts, Lexes e.render.toList ts ∧ Spreads ts e.render.toList ∧
      ∀ text : String, Spreads ts text.toList →
        ((∀ k, e.Nests k → k ≤ maxDepth) → parse text = .ok e) ∧
        ((∃ k, e.Nests k ∧ maxDepth < k) →
          ∃ err offset, parse text = .error err ∧ err.kind = .malformed ∧
            err = .unreadable .tooDeep offset text) := by
  obtain ⟨ts, hts, spread⟩ := h.exists_derives (Nat.le_succ e.depth)
  refine ⟨ts, spread.lexes hts.apart, spread, fun text htext => ⟨fun hk => ?_, ?_⟩⟩
  · have hd := forall_nests_le_iff.mp hk
    exact parse_eq_ok_iff.mpr ⟨ts, htext.lexes hts.apart, hts.of_depth_le hd⟩
  · rintro ⟨k, hk, hlt⟩
    have hd : maxDepth + 1 < e.depth := by
      have := nests_iff.mp hk
      omega
    obtain ⟨offset, herr⟩ := parse_tooDeep (htext.lexes hts.apart) hts hd
    exact ⟨_, offset, herr, rfl, rfl⟩

/-- Blanks stand between the tokens of a text that is read, and one group more than `maxDepth` is
refused. -/
theorem parse_spread_cap :
    (∃ e, e.Legible ∧ e = .node "n" [leaf "7"] ∧ parse "n ( 7\n)" = .ok e) ∧
    ∃ e, e.Legible ∧ e = (fun e => node "n" [e])^[maxDepth + 1] (leaf "7") ∧
      ∃ offset, parse e.render = .error (.unreadable .tooDeep offset e.render) := by
  have hn : Spelled (.identifier (String.ofList ['n'])) ['n'] := .identifier (by decide) (by simp)
  have h7 : Spelled (.integer (String.ofList ['7'])) ['7'] := .integer (by decide) (by simp)
  have number : (leaf "7").Legible := .node h7 (.integer _) (by simp)
  have chain : ∀ k, ((fun e => node "n" [e])^[k] (leaf "7")).Legible ∧
      ((fun e => node "n" [e])^[k] (leaf "7")).Nests k := by
    intro k
    induction k with
    | zero => exact ⟨number, .zero⟩
    | succ k ih =>
      rw [Function.iterate_succ_apply']
      exact ⟨.node hn (.identifier _) (by simpa using ih.1), .succ (by simp) ih.2⟩
  constructor
  · have legible : (node "n" [leaf "7"]).Legible := .node hn (.identifier _) (by simpa using number)
    refine ⟨_, legible, rfl, ?_⟩
    obtain ⟨ts, hts, -, read⟩ := parse_spread legible
    have hlex : Lexes (node "n" [leaf "7"]).render.toList
        [.identifier "n", .opening, .integer "7", .closing] := by
      have spread := Spreads.token hn (.token .opening (.token h7 (.token .closing .nil)))
      have apart : [Token.identifier "n", .opening, .integer "7", .closing].IsChain Apart := by
        simp [Apart, isName]
      rw [show (node "n" [leaf "7"]).render = "n(7)" from rfl]
      exact spread.lexes apart
    rw [hts.unique hlex] at read
    refine (read "n ( 7\n)" ?_).1 (forall_nests_le_iff.mpr (by decide))
    exact .token hn (.blank (by decide) (.token .opening (.blank (by decide) (.token h7
      (.blank (by decide) (.token .closing .nil))))))
  · obtain ⟨legible, nests⟩ := chain (maxDepth + 1)
    refine ⟨_, legible, rfl, ?_⟩
    obtain ⟨ts, -, hts, read⟩ := parse_spread legible
    obtain ⟨_, offset, herr, -, rfl⟩ := (read _ hts).2 ⟨_, nests, Nat.lt_succ_self _⟩
    exact ⟨offset, herr⟩

end Expression

end DescLogic
