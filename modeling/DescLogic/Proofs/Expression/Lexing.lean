import Mathlib.Data.List.TakeWhile
import DescLogic.Expression.Token
/-!
# What the tokens of a text are

`Token.Spelled t w` says that the characters `w` spell the token `t`, and `Token.Lexes cs ts` that
the text `cs` falls into the tokens `ts`: blanks are passed over, and at any other place stands a
token with the longest front of what is left that spells one.

* `Token.lexes_iff`: the tokens that are found are those that the text falls into. A text that
  falls into no tokens is refused.
-/

namespace DescLogic.Token

variable {t t' : Token} {c d : Char} {u w rest cs : List Char} {ts : List Token}
  {ls : List Lexeme} {offset : Nat}

/-- The characters spell the token. -/
inductive Spelled : Token → List Char → Prop where
  | opening : Spelled .opening ['(']
  | closing : Spelled .closing [')']
  | comma : Spelled .comma [',']
  | identifier {c : Char} {cs : List Char} :
      isNameStart c = true → (∀ d ∈ cs, isNamePart d = true) →
      Spelled (.identifier (String.ofList (c :: cs))) (c :: cs)
  | integer {c : Char} {cs : List Char} :
      c.isDigit = true → (∀ d ∈ cs, d.isDigit = true) →
      Spelled (.integer (String.ofList (c :: cs))) (c :: cs)

/-- No front of the text that is longer than `w` spells a token. -/
def Longest (w cs : List Char) : Prop :=
  ∀ (t : Token) (w' : List Char), Spelled t w' → w' <+: cs → w'.length ≤ w.length

/-- The text falls into the tokens. -/
inductive Lexes : List Char → List Token → Prop where
  | nil : Lexes [] []
  | blank {c : Char} {cs : List Char} {ts : List Token} :
      isBlank c = true → Lexes cs ts → Lexes (c :: cs) ts
  | token {t : Token} {w rest : List Char} {ts : List Token} :
      Spelled t w → Longest w (w ++ rest) → Lexes rest ts → Lexes (w ++ rest) (t :: ts)

/-! ## Characters -/

theorem isNamePart_of_isDigit (h : c.isDigit = true) : isNamePart c = true := by
  simp [isNamePart, Char.isAlphanum, h]

/-- No digit starts an identifier. -/
theorem isNameStart_of_isDigit (h : c.isDigit = true) : isNameStart c = false := by
  have hc : c ≠ '_' := by
    rintro rfl
    exact absurd h (by decide)
  have letter : c.isAlpha = (decide (c.val ≥ 'A'.val ∧ c.val ≤ 'Z'.val) ||
      decide (c.val ≥ 'a'.val) && decide (c.val ≤ 'z'.val)) := rfl
  simp only [isNameStart, letter, Char.isDigit, ge_iff_le, UInt32.le_iff_toNat_le,
    Bool.and_eq_true, decide_eq_true_eq] at h ⊢
  have : '9'.val.toNat = 57 := rfl
  have : 'A'.val.toNat = 65 := rfl
  have : 'a'.val.toNat = 97 := rfl
  grind

theorem eq_of_isBlank (h : isBlank c = true) : c = ' ' ∨ c = '\t' ∨ c = '\n' ∨ c = '\r' := by
  simpa [isBlank, or_assoc] using h

/-- The characters that go on with a token that starts with `c`. -/
def goesOn (c : Char) : Char → Bool :=
  if isNameStart c then isNamePart else if c.isDigit then Char.isDigit else fun _ => false

theorem goesOn_of_isNameStart (h : isNameStart c = true) : goesOn c = isNamePart := by
  rw [goesOn, if_pos h]

theorem goesOn_of_isDigit (h : c.isDigit = true) : goesOn c = Char.isDigit := by
  rw [goesOn, if_neg (by simp [isNameStart_of_isDigit h]), if_pos h]

/-- Parentheses and commas stand alone. -/
theorem goesOn_of_punctuation (h : c = '(' ∨ c = ')' ∨ c = ',') : goesOn c = fun _ => false := by
  rcases h with rfl | rfl | rfl <;> rfl

theorem dropWhile_of_punctuation (h : c = '(' ∨ c = ')' ∨ c = ',') :
    cs.dropWhile (goesOn c) = cs := by
  rw [goesOn_of_punctuation h]
  cases cs <;> rfl

theorem takeWhile_of_punctuation (h : c = '(' ∨ c = ')' ∨ c = ',') :
    cs.takeWhile (goesOn c) = [] := by
  rw [goesOn_of_punctuation h]
  cases cs <;> rfl

/-! ## Words -/

theorem Spelled.ne_nil (h : Spelled t w) : w ≠ [] := by
  cases h <;> simp

/-- No token starts with a blank. -/
theorem Spelled.isBlank_eq_false (h : Spelled t (c :: w)) : isBlank c = false := by
  rw [Bool.eq_false_iff]
  intro hb
  rcases eq_of_isBlank hb with rfl | rfl | rfl | rfl <;> cases h <;>
    first
    | exact absurd ‹isNameStart _ = true› (by decide)
    | exact absurd ‹Char.isDigit _ = true› (by decide)

/-- All that follows the first character goes on with the token. -/
theorem Spelled.goesOn (h : Spelled t (c :: w)) (hd : d ∈ w) : goesOn c d = true := by
  cases h with
  | opening | closing | comma => simp at hd
  | identifier hc hw => rw [goesOn_of_isNameStart hc, hw d hd]
  | integer hc hw => rw [goesOn_of_isDigit hc, hw d hd]

/-- A word may be followed by any other characters that go on with its token. -/
theorem Spelled.exists_of_goesOn (h : Spelled t (c :: w)) (hu : ∀ d ∈ u, Token.goesOn c d = true) :
    ∃ t, Spelled t (c :: u) := by
  cases h with
  | identifier hc _ => exact ⟨_, .identifier hc (goesOn_of_isNameStart hc ▸ hu)⟩
  | integer hc _ => exact ⟨_, .integer hc (goesOn_of_isDigit hc ▸ hu)⟩
  | opening | closing | comma =>
    obtain _ | ⟨d, u⟩ := u
    · exact ⟨_, by constructor⟩
    · exact absurd (hu d (by simp)) (by simp [goesOn_of_punctuation])

/-- Reading on as long as the token goes on gives the longest word. -/
theorem longest_takeWhile : Longest (c :: cs.takeWhile (goesOn c)) (c :: cs) := by
  intro t w' hw' hp
  obtain _ | ⟨c', w⟩ := w'
  · exact absurd rfl hw'.ne_nil
  · obtain ⟨rfl, rest, rfl⟩ := List.cons_prefix_cons.mp hp
    rw [List.takeWhile_append_of_pos fun d => hw'.goesOn]
    simp

/-- The longest word is read as long as its token goes on, and what is left starts after that. -/
theorem Longest.eq_takeWhile (hl : Longest (c :: w) (c :: w ++ rest)) (h : Spelled t (c :: w)) :
    w = (w ++ rest).takeWhile (Token.goesOn c) ∧
      rest = (w ++ rest).dropWhile (Token.goesOn c) := by
  obtain ⟨t', ht'⟩ := h.exists_of_goesOn (u := (w ++ rest).takeWhile (Token.goesOn c)) fun d hd =>
    List.mem_takeWhile_imp hd
  have hle := hl t' _ ht' (List.cons_prefix_cons.mpr ⟨rfl, List.takeWhile_prefix _⟩)
  have ht : (w ++ rest).takeWhile (Token.goesOn c) = w ++ rest.takeWhile (Token.goesOn c) :=
    List.takeWhile_append_of_pos fun d => h.goesOn
  have hnil : rest.takeWhile (Token.goesOn c) = [] := by
    rw [ht, List.length_cons, List.length_cons, List.length_append] at hle
    exact List.length_eq_zero_iff.mp (by omega)
  have hrest := List.takeWhile_append_dropWhile (p := Token.goesOn c) (l := rest)
  rw [hnil, List.nil_append] at hrest
  rw [ht, hnil, List.append_nil, List.dropWhile_append_of_pos fun d => h.goesOn, hrest]
  exact ⟨rfl, rfl⟩

/-- The next token is the word that is read as long as it goes on. -/
theorem Lexes.longest (h : Spelled t (c :: cs.takeWhile (goesOn c)))
    (hts : Lexes (cs.dropWhile (goesOn c)) ts) : Lexes (c :: cs) (t :: ts) := by
  have hcs : c :: cs = c :: cs.takeWhile (goesOn c) ++ cs.dropWhile (goesOn c) := by
    rw [List.cons_append, List.takeWhile_append_dropWhile]
  rw [hcs]
  exact .token h (hcs ▸ longest_takeWhile) hts

/-! ## The tokens found -/

theorem lexFrom_blank (h : isBlank c = true) :
    lexFrom offset (c :: cs) = lexFrom (offset + c.utf8Size) cs := by
  rw [lexFrom, if_pos h]

/-- A word in front is found as its token. -/
theorem lexFrom_token (offset : Nat) (h : Spelled t (c :: cs.takeWhile (goesOn c))) :
    ∃ offset', lexFrom offset (c :: cs) =
      (⟨t, offset⟩ :: ·) <$> lexFrom offset' (cs.dropWhile (goesOn c)) := by
  rw [lexFrom, if_neg (by simp [h.isBlank_eq_false])]
  generalize hw : cs.takeWhile (goesOn c) = w at h
  cases h with
  | opening | closing | comma => exact ⟨offset + 1, by simp [dropWhile_of_punctuation]⟩
  | identifier hc _ =>
    have hne : c ≠ '(' ∧ c ≠ ')' ∧ c ≠ ',' := by
      refine ⟨?_, ?_, ?_⟩ <;> rintro rfl <;> exact absurd hc (by decide)
    rw [goesOn_of_isNameStart hc] at hw ⊢
    exact ⟨offset + (c :: w).length,
      by simp only [if_neg hne.1, if_neg hne.2.1, if_neg hne.2.2, if_pos hc, hw]⟩
  | integer hc _ =>
    have hne : c ≠ '(' ∧ c ≠ ')' ∧ c ≠ ',' := by
      refine ⟨?_, ?_, ?_⟩ <;> rintro rfl <;> exact absurd hc (by decide)
    have hs : ¬isNameStart c = true := by simp [isNameStart_of_isDigit hc]
    rw [goesOn_of_isDigit hc] at hw ⊢
    exact ⟨offset + (c :: w).length,
      by simp only [if_neg hne.1, if_neg hne.2.1, if_neg hne.2.2, if_neg hs, if_pos hc, hw]⟩

/-- A token found in front of others. -/
theorem lexes_cons (hw : Spelled t (c :: cs.takeWhile (goesOn c)))
    {run : Except LexFault (List Lexeme)}
    (h : (⟨t, offset⟩ :: ·) <$> run = .ok ls)
    (ih : ∀ {ls}, run = .ok ls → Lexes (cs.dropWhile (goesOn c)) (ls.map Lexeme.token)) :
    Lexes (c :: cs) (ls.map Lexeme.token) := by
  cases run with
  | error fault => cases h
  | ok found =>
    cases h
    exact .longest hw (ih rfl)

/-- Every text falls into the tokens that are found in it. -/
theorem lexes_of_lexFrom (h : lexFrom offset cs = .ok ls) : Lexes cs (ls.map Lexeme.token) := by
  fun_induction lexFrom offset cs generalizing ls
  case case1 => cases h; exact .nil
  case case2 offset c cs hc ih => exact .blank hc (ih h)
  case case3 offset cs hc ih =>
    refine lexes_cons ?_ h (dropWhile_of_punctuation (.inl rfl) ▸ ih)
    rw [takeWhile_of_punctuation (.inl rfl)]
    exact .opening
  case case4 offset cs hc ho ih =>
    refine lexes_cons ?_ h (dropWhile_of_punctuation (.inr (.inl rfl)) ▸ ih)
    rw [takeWhile_of_punctuation (.inr (.inl rfl))]
    exact .closing
  case case5 offset cs hc ho hp ih =>
    refine lexes_cons ?_ h (dropWhile_of_punctuation (.inr (.inr rfl)) ▸ ih)
    rw [takeWhile_of_punctuation (.inr (.inr rfl))]
    exact .comma
  case case6 offset c cs hb ho hp hm hc text ih =>
    have hg := goesOn_of_isNameStart hc
    refine lexes_cons ?_ h (hg ▸ ih)
    rw [hg]
    exact .identifier hc fun d => List.mem_takeWhile_imp
  case case7 offset c cs hb ho hp hm hs hc text ih =>
    have hg := goesOn_of_isDigit hc
    refine lexes_cons ?_ h (hg ▸ ih)
    rw [hg]
    exact .integer hc fun d => List.mem_takeWhile_imp
  case case8 => cases h

/-- The tokens that a text falls into are found. -/
theorem Lexes.lexFrom (h : Lexes cs ts) (offset : Nat) :
    ∃ ls, lexFrom offset cs = .ok ls ∧ ls.map Lexeme.token = ts := by
  induction h generalizing offset with
  | nil => exact ⟨[], by rw [Token.lexFrom], rfl⟩
  | blank hc _ ih => rw [lexFrom_blank hc]; exact ih _
  | @token t w rest ts hw hl _ ih =>
    obtain _ | ⟨c, w⟩ := w
    · exact absurd rfl hw.ne_nil
    · obtain ⟨hcs, hrest⟩ := hl.eq_takeWhile hw
      rw [hcs] at hw
      obtain ⟨offset', hrun⟩ := lexFrom_token offset hw
      obtain ⟨ls, hls, rfl⟩ := ih offset'
      rw [List.cons_append, hrun, ← hrest, hls]
      exact ⟨_, rfl, rfl⟩

/-- **The tokens found are those that the text falls into**, and none are found in a text that
falls into no tokens. -/
theorem lexes_iff (offset : Nat) :
    (∃ ls, Token.lexFrom offset cs = .ok ls ∧ ls.map Lexeme.token = ts) ↔
      Lexes cs ts := by
  constructor
  · rintro ⟨ls, h, rfl⟩
    exact lexes_of_lexFrom h
  · exact fun h => h.lexFrom offset

/-- A text falls into tokens in one way only. -/
theorem Lexes.unique {ts' : List Token} (h : Lexes cs ts) (h' : Lexes cs ts') : ts = ts' := by
  obtain ⟨ls, hls, rfl⟩ := h.lexFrom 0
  obtain ⟨ls', hls', rfl⟩ := h'.lexFrom 0
  rw [hls] at hls'
  cases hls'
  rfl

end DescLogic.Token
