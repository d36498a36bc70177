import Mathlib.Data.List.Chain
import DescLogic.Expression.Reader
import DescLogic.Proofs.Expression.Lexing
/-!
# The grammar of expressions

The grammar is `expr := NAME | HEAD '(' expr (',' expr)* ')'`. A name is an identifier or an
integer. `Expression.Derives heads n ts e` derives the expression `e` from the tokens `ts`, with
parentheses nested at most `n` deep, where `heads` says which tokens may stand before a
parenthesis: identifiers only (`Token.Identifies`), or any name (`Token.Names`).

* `Expression.completesName_of_readName`, `Expression.Derives.takes`: the reader takes off the front
  of the tokens what derives an expression, and goes on in the same open groups.
* `Expression.parse_eq_ok_iff`: the reader accepts what is derived with any name as head.
* `Expression.parse_grammar`: how this compares with identifiers as heads.
-/

namespace DescLogic

/-- The token is the name `s`. -/
inductive Token.Names : Token → String → Prop where
  | identifier (s : String) : Names (.identifier s) s
  | integer (s : String) : Names (.integer s) s

/-- Is the token a name? -/
def Token.isName : Token → Bool
  | .identifier _ | .integer _ => true
  | _ => false

/-- The token is the identifier `s`. -/
inductive Token.Identifies : Token → String → Prop where
  | identifier (s : String) : Identifies (.identifier s) s

theorem Token.Identifies.names {t : Token} {s : String} (h : t.Identifies s) : t.Names s := by
  cases h
  exact .identifier s

namespace Expression

variable {heads heads' : Token → String → Prop} {m n : Nat} {l : Lexeme} {ls ls₁ ls₂ : List Lexeme}
  {t : Token} {ts us : List Token} {e r : Expression} {es : List Expression} {g : OpenGroup}
  {stack outer : List OpenGroup} {fresh : Bool} {s text : String}

mutual

/-- The tokens are an expression, with parentheses nested at most `n` deep. -/
inductive Derives (heads : Token → String → Prop) : Nat → List Token → Expression → Prop where
  | name {n : Nat} {t : Token} {s : String} : t.Names s → Derives heads n [t] (leaf s)
  | group {n : Nat} {t : Token} {s : String} {ts us : List Token} {e : Expression}
      {es : List Expression} :
      heads t s → Derives heads n ts e → DerivesRest heads n us es →
      Derives heads (n + 1) (t :: .opening :: (ts ++ (us ++ [.closing]))) (.node s (e :: es))

/-- The tokens are expressions with a comma before each. -/
inductive DerivesRest (heads : Token → String → Prop) :
    Nat → List Token → List Expression → Prop where
  | nil {n : Nat} : DerivesRest heads n [] []
  | cons {n : Nat} {ts us : List Token} {e : Expression} {es : List Expression} :
      Derives heads n ts e → DerivesRest heads n us es →
      DerivesRest heads n (.comma :: (ts ++ us)) (e :: es)

end

/-! ## Heads -/

/-- More tokens allowed as heads derive more. -/
theorem Derives.mono (hh : ∀ t s, heads t s → heads' t s) (h : Derives heads n ts e) :
    Derives heads' n ts e :=
  h.rec (motive_2 := fun n ts es _ => DerivesRest heads' n ts es) (fun ht => .name ht)
    (fun ht _ _ he hes => .group (hh _ _ ht) he hes) .nil fun _ _ he hes => .cons he hes

/-- An expression starts with a name. -/
theorem Derives.head?_ne (h : Derives heads n ts e) (hh : ∀ t s, heads t s → t.Names s) :
    ∀ t ∈ ts.head?, t ≠ .opening := by
  rintro _ ht rfl
  cases h with
  | name hn =>
    obtain rfl : _ = Token.opening := by simpa using ht
    cases hn
  | group hn _ _ =>
    obtain rfl : _ = Token.opening := by simpa using ht
    cases hh _ _ hn

section Chain

variable {R : Token → Token → Prop}
  (other : ∀ t t', t' ≠ .opening → (t.isName = false ∨ t'.isName = false) → R t t')

include other

/-- After an expression in a group stands a comma or a closing parenthesis. -/
theorem DerivesRest.isChain_append (h : DerivesRest heads n us es) (hts : ts.IsChain R)
    (hus : (us ++ [Token.closing]).IsChain R) : (ts ++ (us ++ [Token.closing])).IsChain R := by
  refine List.isChain_append.mpr ⟨hts, hus, fun t' _ t ht => ?_⟩
  cases h <;> obtain rfl : _ = t := by simpa using ht
  · exact other _ _ (by simp) (.inr rfl)
  · exact other _ _ (by simp) (.inr rfl)

/-- Before an expression in a group stands a parenthesis or a comma. -/
theorem Derives.of_mem_head? (hh : ∀ t s, heads t s → t.Names s) (h : Derives heads n ts e)
    (ht : t.isName = false) : ∀ t' ∈ (ts ++ us).head?, R t t' := by
  intro t' ht'
  have mem : t' ∈ ts.head? := by cases h <;> simpa using ht'
  exact other t t' (h.head?_ne hh t' mem) (.inl ht)

/-- Which tokens stand next to each other: a head before its parenthesis, and otherwise two of
which one is no name and the second opens no group. -/
theorem Derives.isChain (hh : ∀ t s, heads t s → t.Names s) (head : ∀ t s, heads t s → R t .opening)
    (h : Derives heads n ts e) : ts.IsChain R := by
  refine h.rec (motive_2 := fun n us es _ => (us ++ [Token.closing]).IsChain R)
    ?name ?group ?nil ?cons
  case name => intros; exact .singleton _
  case nil => intros; exact .singleton _
  case group =>
    intro n t s ts us e es ht he hes ihe ihes
    exact .cons_cons (head t s ht)
      (.cons (hes.isChain_append other ihe ihes) (he.of_mem_head? other hh rfl))
  case cons =>
    intro n ts us e es he hes ihe ihes
    rw [List.cons_append, List.append_assoc]
    exact .cons (hes.isChain_append other ihe ihes) (he.of_mem_head? other hh rfl)

end Chain

/-- An integer is not followed by an opening parenthesis. -/
def HeadsNoGroup : Token → Token → Prop
  | .integer _, .opening => False
  | _, _ => True

theorem identifies_of_headsNoGroup (h : t.Names s) (hg : HeadsNoGroup t .opening) :
    t.Identifies s := by
  cases h with
  | identifier s => exact .identifier s
  | integer s => exact hg.elim

/-- Identifiers as heads leave no integer before a parenthesis. -/
theorem Derives.headsNoGroup (h : Derives Token.Identifies n ts e) :
    ts.IsChain HeadsNoGroup := by
  refine h.isChain ?_ (fun _ _ => Token.Identifies.names) ?_
  · intro t t' ht' _
    cases t <;> cases t' <;> simp_all [HeadsNoGroup]
  · rintro _ _ ⟨s⟩
    trivial

/-- Where no integer stands before a parenthesis, every head is an identifier. -/
theorem Derives.identifies (h : Derives Token.Names n ts e) (hts : ts.IsChain HeadsNoGroup) :
    Derives Token.Identifies n ts e := by
  refine h.rec
    (motive_1 := fun n ts e _ => ts.IsChain HeadsNoGroup → Derives Token.Identifies n ts e)
    (motive_2 := fun n us es _ => us.IsChain HeadsNoGroup → DerivesRest Token.Identifies n us es)
    ?name ?group ?nil ?cons hts
  case name => exact fun ht _ => .name ht
  case nil => exact fun _ => .nil
  case group =>
    intro n t s ts us e es ht _ _ ihe ihes hts
    obtain ⟨hg, hts⟩ := List.isChain_cons_cons.mp hts
    have hargs := hts.tail
    exact .group (identifies_of_headsNoGroup ht hg) (ihe hargs.left_of_append)
      (ihes hargs.right_of_append.left_of_append)
  case cons =>
    intro n ts us e es _ _ ihe ihes hts
    exact .cons (ihe hts.tail.left_of_append) (ihes hts.tail.right_of_append)

/-! ## Steps of the reader -/

theorem readName_cons_eq_ok_iff : readName stack (l :: ls) = .ok r ↔
    ∃ s, l.token.Names s ∧ readRest stack (leaf s) true ls = .ok r := by
  rw [readName]
  constructor
  · intro h
    split at h
    case h_1 s hs => exact ⟨s, hs ▸ .identifier s, h⟩
    case h_2 s hs => exact ⟨s, hs ▸ .integer s, h⟩
    case h_3 => cases h
  · rintro ⟨s, hs, h⟩
    generalize l.token = t at hs
    cases hs <;> exact h

/-- After an expression stands the group of a fresh name, a comma or a closing parenthesis. -/
theorem readRest_cons_eq_ok_iff : readRest stack e fresh (l :: ls) = .ok r ↔
    (fresh = true ∧ l.token = .opening ∧ stack.length ≠ maxDepth ∧
      readName (⟨e.name, []⟩ :: stack) ls = .ok r) ∨
    ∃ g outer, stack = g :: outer ∧
      ((l.token = .comma ∧ readName (⟨g.name, e :: g.args⟩ :: outer) ls = .ok r) ∨
        (l.token = .closing ∧
          readRest outer (.node g.name (e :: g.args).reverse) false ls = .ok r)) := by
  rw [readRest.eq_def]
  dsimp only
  split_ifs with hf hd
  · simp_all
  · simp_all
  · cases stack with
    | nil => simp_all
    | cons g outer => cases ht : l.token <;> simp_all

/-! ## What is read is derived -/

/-- How the tokens go on after the expression `e` so that the open groups `stack` end in `r`: each
group takes more expressions after commas, and is closed. -/
def Completes : List OpenGroup → Expression → List Token → Expression → Prop
  | [], e, ts, r => ts = [] ∧ r = e
  | g :: outer, e, ts, r => ∃ us es rest, ts = us ++ .closing :: rest ∧
      DerivesRest Token.Names (maxDepth - (outer.length + 1)) us es ∧
      Completes outer (.node g.name (g.args.reverse ++ e :: es)) rest r

/-- How the tokens go on where an expression is due: with an expression, and then as they do after
it. -/
def CompletesName (stack : List OpenGroup) (ts : List Token) (r : Expression) : Prop :=
  ∃ ts₁ e rest, ts = ts₁ ++ rest ∧ Derives Token.Names (maxDepth - stack.length) ts₁ e ∧
    Completes stack e rest r

/-- In an open group the expression may be followed by a comma and more. -/
theorem CompletesName.comma (h : CompletesName (⟨g.name, e :: g.args⟩ :: outer) ts r) :
    Completes (g :: outer) e (.comma :: ts) r := by
  obtain ⟨ts₁, e₁, _, rfl, he₁, us, es, rest, rfl, hes, hr⟩ := h
  refine ⟨.comma :: (ts₁ ++ us), e₁ :: es, rest, by simp, .cons he₁ hes, ?_⟩
  simpa using hr

/-- A name may be followed by a group. -/
theorem CompletesName.group (hs : stack.length < maxDepth) (ht : t.Names s)
    (h : CompletesName (⟨s, []⟩ :: stack) ts r) :
    CompletesName stack (t :: .opening :: ts) r := by
  obtain ⟨ts₁, e₁, _, rfl, he₁, us, es, rest, rfl, hes, hr⟩ := h
  refine ⟨t :: .opening :: (ts₁ ++ (us ++ [.closing])), .node s (e₁ :: es), rest, by simp, ?_, hr⟩
  rw [show maxDepth - stack.length = maxDepth - (stack.length + 1) + 1 by omega]
  exact .group ht he₁ hes

mutual

/-- What is read where an expression is due. -/
theorem completesName_of_readName : ∀ {ls : List Lexeme} {stack : List OpenGroup} {r : Expression},
    stack.length ≤ maxDepth → readName stack ls = .ok r →
    CompletesName stack (ls.map Lexeme.token) r
  | [], _, _, _, h => by cases h
  | l :: ls, stack, r, hs, h => by
    obtain ⟨s, hl, h⟩ := readName_cons_eq_ok_iff.mp h
    rcases completes_of_readRest hs h with hr | ⟨-, ts, hts, hlt, hr⟩
    · exact ⟨[l.token], leaf s, ls.map Lexeme.token, rfl, .name hl, hr⟩
    · rw [List.map_cons, hts]
      exact hr.group hlt hl

/-- What is read after an expression. A group may follow if it is a fresh name. -/
theorem completes_of_readRest : ∀ {ls : List Lexeme} {stack : List OpenGroup} {e r : Expression}
    {fresh : Bool}, stack.length ≤ maxDepth → readRest stack e fresh ls = .ok r →
    Completes stack e (ls.map Lexeme.token) r ∨
      (fresh = true ∧ ∃ ts, ls.map Lexeme.token = .opening :: ts ∧ stack.length < maxDepth ∧
        CompletesName (⟨e.name, []⟩ :: stack) ts r)
  | [], stack, e, r, fresh, hs, h => by
    cases stack with
    | nil => cases h; exact .inl ⟨rfl, rfl⟩
    | cons g outer => cases h
  | l :: ls, stack, e, r, fresh, hs, h => by
    rcases readRest_cons_eq_ok_iff.mp h with ⟨hf, hl, hd, h⟩ | ⟨g, outer, rfl, ⟨hl, h⟩ | ⟨hl, h⟩⟩
    · have hlt : stack.length < maxDepth := by omega
      exact .inr ⟨hf, _, by rw [List.map_cons, hl], hlt, completesName_of_readName hlt h⟩
    · rw [List.map_cons, hl]
      exact .inl (CompletesName.comma (completesName_of_readName hs h))
    · rw [List.map_cons, hl]
      have hr := completes_of_readRest (Nat.le_of_succ_le hs) h
      exact .inl ⟨[], [], _, rfl, .nil, by simpa using hr⟩

end

/-! ## What is derived is read -/

theorem readName_cons (hl : l.token.Names s) :
    readName stack (l :: ls) = readRest stack (leaf s) true ls := by
  rw [readName]
  generalize l.token = t at hl
  cases hl <;> rfl

/-- A fresh name opens a group, if there is room for one more. -/
theorem readRest_opening (hl : l.token = .opening) (hd : stack.length ≠ maxDepth) :
    readRest stack e true (l :: ls) = readName (⟨e.name, []⟩ :: stack) ls := by
  rw [readRest.eq_def]
  simp [hl, hd]

theorem readRest_comma (hl : l.token = .comma) :
    readRest (g :: outer) e false (l :: ls) = readName (⟨g.name, e :: g.args⟩ :: outer) ls := by
  rw [readRest.eq_def]
  simp [hl]

theorem readRest_closing (hl : l.token = .closing) :
    readRest (g :: outer) e false (l :: ls) =
      readRest outer (.node g.name (g.args.reverse ++ [e])) false ls := by
  rw [readRest.eq_def]
  simp [hl]

/-- Where no parenthesis follows, a fresh name is read like any expression. -/
theorem readRest_fresh (h : ∀ l ∈ ls.head?, l.token ≠ .opening) :
    readRest stack e true ls = readRest stack e false ls := by
  obtain _ | ⟨l, ls⟩ := ls
  · cases stack <;> rfl
  · have hl : (l.token == .opening) = false := by simpa using h
    rw [readRest.eq_def, readRest.eq_def stack e false]
    simp only [hl, Bool.and_false]

/-- The reader takes the tokens `ts` for the expression `e` and goes on after it, with whatever
outcome. -/
def Takes (n : Nat) (ts : List Token) (e : Expression) : Prop :=
  ∀ (stack : List OpenGroup) (ls₁ ls₂ : List Lexeme),
    n + stack.length ≤ maxDepth → ls₁.map Lexeme.token = ts →
    (∀ l ∈ ls₂.head?, l.token ≠ .opening) →
    readName stack (ls₁ ++ ls₂) = readRest stack e false ls₂

/-- In an open group the reader takes the tokens `us` for the expressions `es`, closes the group
and goes on after it, with whatever outcome. -/
def TakesRest (n : Nat) (us : List Token) (es : List Expression) : Prop :=
  ∀ (g : OpenGroup) (outer : List OpenGroup) (e : Expression) (ls₁ ls₂ : List Lexeme) (l : Lexeme),
    n + (outer.length + 1) ≤ maxDepth → ls₁.map Lexeme.token = us → l.token = .closing →
    readRest (g :: outer) e false (ls₁ ++ l :: ls₂) =
      readRest outer (.node g.name (g.args.reverse ++ e :: es)) false ls₂

/-- No group starts after an expression inside a group. -/
theorem DerivesRest.head?_ne (h : DerivesRest heads n us es) (hls : ls₁.map Lexeme.token = us)
    (hl : l.token = .closing) : ∀ l' ∈ (ls₁ ++ l :: ls₂).head?, l'.token ≠ .opening := by
  obtain _ | ⟨l₁, ls₁⟩ := ls₁
  · simp [hl]
  · cases h <;> simp_all

theorem takes_name (ht : t.Names s) : Takes n [t] (leaf s) := by
  intro stack ls₁ ls₂ _ hts hl
  obtain ⟨l, rfl, rfl⟩ : ∃ l, ls₁ = [l] ∧ l.token = t := by simpa using hts
  exact (readName_cons ht).trans (readRest_fresh hl)

theorem takes_group (ht : t.Names s) (he : Takes n ts e) (hus : DerivesRest heads n us es)
    (hes : TakesRest n us es) :
    Takes (n + 1) (t :: .opening :: (ts ++ (us ++ [.closing]))) (.node s (e :: es)) := by
  intro stack ls₁ ls₂ hn hts hl
  obtain ⟨l, _, rfl, rfl, hls⟩ := List.map_eq_cons_iff.mp hts
  obtain ⟨o, _, rfl, ho, hls⟩ := List.map_eq_cons_iff.mp hls
  obtain ⟨ls₃, _, rfl, hls₃, hls⟩ := List.map_eq_append_iff.mp hls
  obtain ⟨ls₄, cl, rfl, hls₄, hls⟩ := List.map_eq_append_iff.mp hls
  obtain ⟨c, rfl, hc⟩ : ∃ c : Lexeme, cl = [c] ∧ c.token = .closing := by simpa using hls
  have hroom : n + (⟨s, []⟩ :: stack : List OpenGroup).length ≤ maxDepth := by
    rw [List.length_cons]
    omega
  calc readName stack (l :: o :: (ls₃ ++ (ls₄ ++ [c])) ++ ls₂)
      = readRest stack (leaf s) true (o :: (ls₃ ++ (ls₄ ++ c :: ls₂))) := by
        rw [List.cons_append, readName_cons ht]
        simp
    _ = readName (⟨s, []⟩ :: stack) (ls₃ ++ (ls₄ ++ c :: ls₂)) := readRest_opening ho (by omega)
    _ = readRest (⟨s, []⟩ :: stack) e false (ls₄ ++ c :: ls₂) :=
        he _ _ _ hroom hls₃ (hus.head?_ne hls₄ hc)
    _ = readRest stack (.node s (e :: es)) false ls₂ := hes _ _ _ _ _ _ hroom hls₄ hc

theorem takesRest_nil : TakesRest n [] [] := by
  intro g outer e ls₁ ls₂ l _ hus hl
  obtain rfl : ls₁ = [] := by simpa using hus
  exact readRest_closing hl

theorem takesRest_cons (he : Takes n ts e) (hus : DerivesRest heads n us es)
    (hes : TakesRest n us es) : TakesRest n (.comma :: (ts ++ us)) (e :: es) := by
  intro g outer e₀ ls₁ ls₂ l hn hts hl
  obtain ⟨c, _, rfl, hc, hls⟩ := List.map_eq_cons_iff.mp hts
  obtain ⟨ls₃, ls₄, rfl, hls₃, hls₄⟩ := List.map_eq_append_iff.mp hls
  calc readRest (g :: outer) e₀ false (c :: (ls₃ ++ ls₄) ++ l :: ls₂)
      = readName (⟨g.name, e₀ :: g.args⟩ :: outer) (ls₃ ++ (ls₄ ++ l :: ls₂)) := by
        rw [List.cons_append, readRest_comma hc, List.append_assoc]
    _ = readRest (⟨g.name, e₀ :: g.args⟩ :: outer) e false (ls₄ ++ l :: ls₂) :=
        he _ _ _ hn hls₃ (hus.head?_ne hls₄ hl)
    _ = readRest outer (.node g.name (g.args.reverse ++ e₀ :: e :: es)) false ls₂ := by
        rw [hes _ _ _ _ _ _ hn hls₄ hl]
        simp

/-- What is derived is taken. -/
theorem Derives.takes (h : Derives Token.Names n ts e) : Takes n ts e :=
  h.rec (motive_2 := fun n us es _ => TakesRest n us es) (fun ht => takes_name ht)
    (fun ht _ hus he => takes_group ht he hus) takesRest_nil fun _ hus he => takesRest_cons he hus

/-! ## What is accepted -/

/-- All tokens are taken exactly if they derive an expression. -/
theorem readName_eq_ok_iff :
    readName [] ls = .ok e ↔ Derives Token.Names maxDepth (ls.map Lexeme.token) e := by
  constructor
  · intro h
    obtain ⟨ts, e, rest, hts, he, rfl, rfl⟩ := completesName_of_readName (Nat.zero_le _) h
    simpa [hts] using he
  · intro h
    have hr : readRest [] e false [] = .ok e := rfl
    simpa [hr] using h.takes [] ls [] le_rfl rfl (by simp)

/-- **The reader accepts what the grammar derives with any name as head**, and the tree is that of
the derivation. -/
theorem parse_eq_ok_iff : parse text = .ok e ↔
    ∃ ts, Token.Lexes text.toList ts ∧ Derives Token.Names maxDepth ts e := by
  have hparse : parse text = .ok e ↔
      ∃ ls, Token.lexFrom 0 text.toList = .ok ls ∧ readName [] ls = .ok e := by
    rw [parse, Token.lex]
    cases Token.lexFrom 0 text.toList with
    | error fault => simp [bind, Except.bind]
    | ok ls =>
      cases h : readName [] ls <;> simp [bind, Except.bind, h]
  simp only [hparse, readName_eq_ok_iff, ← Token.lexes_iff 0]
  constructor
  · rintro ⟨ls, hls, he⟩
    exact ⟨_, ⟨ls, hls, rfl⟩, he⟩
  · rintro ⟨_, ⟨ls, hls, rfl⟩, he⟩
    exact ⟨ls, hls, he⟩

/-- **The reader against the grammar whose heads are identifiers**: it accepts what the grammar
derives with any name as head, and this is what it derives with identifiers as heads exactly if no
integer stands before a parenthesis in a text that is accepted. -/
theorem parse_grammar (text : String) :
    (∀ e, parse text = .ok e ↔
      ∃ ts, Token.Lexes text.toList ts ∧ Derives Token.Names maxDepth ts e) ∧
    ((∀ e, parse text = .ok e ↔
        ∃ ts, Token.Lexes text.toList ts ∧ Derives Token.Identifies maxDepth ts e) ↔
      ∀ e ts, parse text = .ok e → Token.Lexes text.toList ts → ts.IsChain HeadsNoGroup) := by
  refine ⟨fun e => parse_eq_ok_iff, fun h e ts he hts => ?_, fun h e => ⟨fun he => ?_, ?_⟩⟩
  · obtain ⟨ts', hts', hd⟩ := (h e).mp he
    rw [hts.unique hts']
    exact hd.headsNoGroup
  · obtain ⟨ts, hts, hd⟩ := parse_eq_ok_iff.mp he
    exact ⟨ts, hts, hd.identifies (h e ts he hts)⟩
  · rintro ⟨ts, hts, hd⟩
    exact parse_eq_ok_iff.mpr ⟨ts, hts, hd.mono fun _ _ => Token.Identifies.names⟩

/-- An integer is taken for the head of a group, though the grammar derives no such expression. -/
theorem parse_integer_head : parse "0(a)" = .ok (.node "0" [leaf "a"]) ∧
    ¬∃ ts e, Token.Lexes "0(a)".toList ts ∧ Derives Token.Identifies maxDepth ts e := by
  have hlex : Token.lexFrom 0 "0(a)".toList =
      .ok [⟨.integer "0", 0⟩, ⟨.opening, 1⟩, ⟨.identifier "a", 2⟩, ⟨.closing, 3⟩] := by
    simp [Token.lexFrom, Token.isBlank, Token.isNameStart, Token.isNamePart]
  constructor
  · rw [parse, Token.lex, hlex]
    rfl
  · rintro ⟨ts, e, hts, hd⟩
    rw [hts.unique (Token.lexes_of_lexFrom hlex)] at hd
    exact (List.isChain_cons_cons.mp hd.headsNoGroup).1

end Expression

end DescLogic
