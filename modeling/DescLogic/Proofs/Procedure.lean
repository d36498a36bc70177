import DescLogic.Error
import Mathlib.Data.List.Forall2
import Mathlib.Order.Defs.Unbundled
/-!
# Procedures

Constructions, evaluations and runs of the generator are procedures of one kind: they may fail,
and they change a state, which stays changed if they fail.

* `Procedure.run_bind`: running one procedure after the other.
* `Procedure.Moves R x`: from any state, `x` ends in a state that `R` relates to it. It does so
  step by step if `R` is a preorder (`Moves.bind`).
* `Procedure.Aborts R x`: the same for the states that `x` leaves when it fails.
* `Procedure.Answers I x r`: from any state that satisfies `I`, the outcome of `x` is `r`, and `I`
  holds again afterwards.
* `Procedure.Ensures P x Q`: from a state that satisfies `P`, `x` succeeds and its result and the
  state afterwards satisfy `Q`. `Procedure.Succeeds x` if no more than that is known of them.
-/

namespace DescLogic

/-- Computations that may fail and that change a state. -/
abbrev Procedure (σ α : Type) := ExceptT Error (StateM σ) α

namespace Procedure

variable {σ α β : Type} {s : σ}

theorem mapM_eq_ok_iff {ε : Type} {f : α → Except ε β} {l : List α} {bs : List β} :
    l.mapM f = .ok bs ↔ List.Forall₂ (fun a b => f a = .ok b) l bs := by
  induction l generalizing bs with
  | nil => simp [pure, Except.pure, eq_comm]
  | cons a l ih =>
    rw [List.mapM_cons, List.forall₂_cons_left_iff]
    simp only [← ih]
    cases f a <;> cases l.mapM f <;> simp [bind, Except.bind, pure, Except.pure, eq_comm]

theorem forM_eq_ok_iff {ε : Type} {f : α → Except ε PUnit} {l : List α} :
    l.forM f = .ok ⟨⟩ ↔ ∀ a ∈ l, f a = .ok ⟨⟩ := by
  induction l with
  | nil => simp [pure, Except.pure]
  | cons a l ih =>
    rw [List.forall_mem_cons, ← ih]
    show (f a >>= fun _ => l.forM f) = .ok ⟨⟩ ↔ _
    cases f a <;> simp [bind, Except.bind]

/-! ## Running -/

@[simp] theorem run_pure {a : α} : (pure a : Procedure σ α).run s = (.ok a, s) := rfl

@[simp] theorem run_get : (get : Procedure σ σ).run s = (.ok s, s) := rfl

@[simp] theorem run_modifyGet {f : σ → α × σ} :
    (modifyGet f : Procedure σ α).run s = (.ok (f s).1, (f s).2) := rfl

@[simp] theorem run_lift {x : Except Error α} :
    (liftM x : Procedure σ α).run s = (x, s) := rfl

theorem run_bind {x : Procedure σ α} {g : α → Procedure σ β} :
    (x >>= g).run s =
      match x.run s with
      | (.ok a, s') => (g a).run s'
      | (.error e, s') => (.error e, s') := by
  show (ExceptT.bindCont g (x.run s).1) (x.run s).2 = _
  rcases x.run s with ⟨_ | _, _⟩ <;> rfl

theorem run_bind_ok {x : Procedure σ α} {g : α → Procedure σ β} {a : α} {s' : σ}
    (h : x.run s = (.ok a, s')) : (x >>= g).run s = (g a).run s' := by
  rw [run_bind, h]

theorem run_bind_error {x : Procedure σ α} {g : α → Procedure σ β} {e : Error} {s' : σ}
    (h : x.run s = (.error e, s')) : (x >>= g).run s = (.error e, s') := by
  rw [run_bind, h]

theorem run_map {x : Procedure σ α} {g : α → β} :
    (do return g (← x) : Procedure σ β).run s = ((x.run s).1.map g, (x.run s).2) := by
  rw [run_bind]
  rcases x.run s with ⟨_ | _, _⟩ <;> rfl

theorem run_lift_bind_ok {x : Except Error α} {g : α → Procedure σ β} {a : α} (hx : x = .ok a) :
    (liftM x >>= g).run s = (g a).run s := by
  rw [hx, run_bind_ok run_lift]

/-- A sequence that succeeds is made of two procedures that do. -/
theorem run_bind_eq_ok {x : Procedure σ α} {g : α → Procedure σ β} {b : β} {s' : σ}
    (h : (x >>= g).run s = (.ok b, s')) :
    ∃ a s₁, x.run s = (.ok a, s₁) ∧ (g a).run s₁ = (.ok b, s') := by
  rw [run_bind] at h
  rcases hx : x.run s with ⟨_ | a, s₁⟩ <;> rw [hx] at h
  · cases h
  · exact ⟨a, s₁, rfl, h⟩

/-- A sequence fails where its first or its second procedure does. -/
theorem run_bind_eq_error {x : Procedure σ α} {g : α → Procedure σ β} {e : Error} {s' : σ}
    (h : (x >>= g).run s = (.error e, s')) :
    x.run s = (.error e, s') ∨ ∃ a s₁, x.run s = (.ok a, s₁) ∧ (g a).run s₁ = (.error e, s') := by
  rw [run_bind] at h
  rcases hx : x.run s with ⟨_ | a, s₁⟩ <;> rw [hx] at h
  · cases h
    exact .inl rfl
  · exact .inr ⟨a, s₁, rfl, h⟩

theorem run_lift_bind_eq_error {x : Except Error α} {g : α → Procedure σ β} {e : Error} {s' : σ}
    (h : (liftM x >>= g).run s = (.error e, s')) :
    x = .error e ∨ ∃ a, x = .ok a ∧ (g a).run s = (.error e, s') := by
  rcases run_bind_eq_error h with hx | ⟨a, s₁, hx, hg⟩
  · exact .inl (congrArg Prod.fst hx)
  · cases hx
    exact .inr ⟨a, rfl, hg⟩

theorem run_lift_bind_eq_ok {x : Except Error α} {g : α → Procedure σ β} {b : β} {s' : σ}
    (h : (liftM x >>= g).run s = (.ok b, s')) :
    ∃ a, x = .ok a ∧ (g a).run s = (.ok b, s') := by
  obtain ⟨a, s₁, hx, hg⟩ := run_bind_eq_ok h
  cases hx
  exact ⟨a, rfl, hg⟩

/-! ## Where a procedure may lead -/

section Moves

/-- From any state, `x` ends in a state that `R` relates to it. -/
def Moves (R : σ → σ → Prop) (x : Procedure σ α) : Prop := ∀ s, R s (x.run s).2

variable {R : σ → σ → Prop} [IsPreorder σ R]

omit [IsPreorder σ R] in
theorem Moves.rel {x : Procedure σ α} {result : Except Error α} {s s' : σ} (hx : Moves R x)
    (run : x.run s = (result, s')) : R s s' := by
  have moved := hx s
  rwa [run] at moved

theorem Moves.pure {a : α} : Moves R (pure a : Procedure σ α) := fun s => refl_of R s

theorem Moves.throw {e : Error} : Moves R (throw e : Procedure σ α) := fun s => refl_of R s

theorem Moves.get : Moves R (get : Procedure σ σ) := fun s => refl_of R s

theorem Moves.lift {x : Except Error α} : Moves R (liftM x : Procedure σ α) :=
  fun s => refl_of R s

omit [IsPreorder σ R] in
theorem Moves.ite {p : Prop} [Decidable p] {x y : Procedure σ α} (hx : Moves R x)
    (hy : Moves R y) : Moves R (if p then x else y) := by
  split
  · exact hx
  · exact hy

theorem Moves.bind {x : Procedure σ α} {g : α → Procedure σ β} (hx : Moves R x)
    (hg : ∀ a, Moves R (g a)) : Moves R (x >>= g) := by
  intro s
  have first := hx s
  rw [run_bind]
  rcases h : x.run s with ⟨_ | a, s₁⟩ <;> rw [h] at first
  · exact first
  · exact trans_of R first (hg a s₁)

theorem Moves.forM {l : List β} {g : β → Procedure σ PUnit} (hg : ∀ b, Moves R (g b)) :
    Moves R (l.forM g) := by
  induction l with
  | nil => exact .pure
  | cons b l ih => exact .bind (hg b) fun _ => ih

theorem Moves.mapM {l : List β} {g : β → Procedure σ α} (hg : ∀ b, Moves R (g b)) :
    Moves R (l.mapM g) := by
  induction l with
  | nil => exact .pure
  | cons b l ih =>
    rw [List.mapM_cons]
    exact .bind (hg b) fun _ => .bind ih fun _ => .pure

end Moves

/-! ## Outcomes that do not depend on the state -/

section Answers

/-- From any state that satisfies `I`, the outcome of `x` is `r`, and `I` holds again. -/
def Answers (I : σ → Prop) (x : Procedure σ α) (r : Except Error α) : Prop :=
  ∀ s, I s → (x.run s).1 = r ∧ I (x.run s).2

variable {I : σ → Prop} {x : Procedure σ α} {g : α → Procedure σ β} {r : Except Error β}

theorem Answers.pure {a : α} : Answers I (pure a : Procedure σ α) (.ok a) :=
  fun _ hs => ⟨rfl, hs⟩

theorem Answers.lift {x : Except Error α} : Answers I (liftM x : Procedure σ α) x :=
  fun _ hs => ⟨rfl, hs⟩

theorem Answers.bind {a : α} (hx : Answers I x (.ok a)) (hg : Answers I (g a) r) :
    Answers I (x >>= g) r := by
  intro s hs
  obtain ⟨hfst, hI⟩ := hx s hs
  rw [run_bind_ok (Prod.ext hfst rfl)]
  exact hg _ hI

theorem Answers.bind_error {e : Error} (hx : Answers I x (.error e)) :
    Answers I (x >>= g) (.error e) := by
  intro s hs
  obtain ⟨hfst, hI⟩ := hx s hs
  rw [run_bind_error (Prod.ext hfst rfl)]
  exact ⟨rfl, hI⟩

/-- The outcome of a list of procedures is that of the list of their outcomes. -/
theorem Answers.mapM {l : List β} {f : β → Procedure σ α} {o : β → Except Error α}
    (h : ∀ b ∈ l, Answers I (f b) (o b)) : Answers I (l.mapM f) (l.mapM o) := by
  induction l with
  | nil => exact .pure
  | cons b l ih =>
    rw [List.mapM_cons, List.mapM_cons]
    have head := h b (List.mem_cons_self ..)
    have tail := ih fun b hb => h b (List.mem_cons_of_mem _ hb)
    cases hb : o b with
    | error e =>
      rw [hb] at head
      exact .bind_error head
    | ok a =>
      rw [hb] at head
      refine .bind head ?_
      cases hl : l.mapM o with
      | error e =>
        rw [hl] at tail
        exact .bind_error tail
      | ok as =>
        rw [hl] at tail
        exact .bind tail .pure

end Answers

/-! ## What a procedure achieves -/

section Ensures

variable {P : σ → Prop} {Q : α → σ → Prop}

/-- From a state that satisfies `P`, `x` succeeds, and its result and the state afterwards
satisfy `Q`. -/
def Ensures (P : σ → Prop) (x : Procedure σ α) (Q : α → σ → Prop) : Prop :=
  ∀ s, P s → ∃ a s', x.run s = (.ok a, s') ∧ Q a s'

theorem Ensures.pure {a : α} (h : ∀ s, P s → Q a s) :
    Ensures P (pure a : Procedure σ α) Q :=
  fun s hs => ⟨a, s, rfl, h s hs⟩

theorem Ensures.bind {x : Procedure σ α} {g : α → Procedure σ β} {S : β → σ → Prop}
    (hx : Ensures P x Q) (hg : ∀ a, Ensures (Q a) (g a) S) : Ensures P (x >>= g) S := by
  intro s hs
  obtain ⟨a, s₁, hrun, ha⟩ := hx s hs
  rw [run_bind_ok hrun]
  exact hg a s₁ ha

theorem Ensures.imp {P' : σ → Prop} {Q' : α → σ → Prop} {x : Procedure σ α}
    (h : Ensures P x Q) (hP : ∀ s, P' s → P s) (hQ : ∀ a s, Q a s → Q' a s) :
    Ensures P' x Q' := by
  intro s hs
  obtain ⟨a, s', hrun, ha⟩ := h s (hP s hs)
  exact ⟨a, s', hrun, hQ a s' ha⟩

/-- What follows may use what is true of the state it reads. -/
theorem Ensures.get_bind {g : σ → Procedure σ α}
    (h : ∀ s, P s → Ensures (fun s' => s' = s) (g s) Q) : Ensures P (get >>= g) Q := by
  intro s hs
  rw [run_bind_ok run_get]
  exact h s hs s rfl

theorem Ensures.modify {f : σ → σ} {Q : PUnit → σ → Prop} (h : ∀ s, P s → Q ⟨⟩ (f s)) :
    Ensures P (modify f : Procedure σ PUnit) Q :=
  fun s hs => ⟨⟨⟩, f s, rfl, h s hs⟩

theorem Ensures.lift {x : Except Error α} {a : α} (hx : x = .ok a) (h : ∀ s, P s → Q a s) :
    Ensures P (liftM x : Procedure σ α) Q := by
  subst hx
  exact fun s hs => ⟨a, s, rfl, h s hs⟩

/-- From any state, `x` succeeds. -/
abbrev Succeeds (x : Procedure σ α) : Prop := Ensures (fun _ => True) x fun _ _ => True

theorem succeeds_pure {a : α} : Succeeds (pure a : Procedure σ α) := .pure fun _ hs => hs

theorem succeeds_modifyGet {f : σ → α × σ} : Succeeds (modifyGet f : Procedure σ α) :=
  fun s hs => ⟨(f s).1, (f s).2, rfl, hs⟩

theorem Ensures.forM {l : List β} {g : β → Procedure σ PUnit}
    (hg : ∀ b, Ensures P (g b) fun _ => P) : Ensures P (l.forM g) fun _ => P := by
  induction l with
  | nil => exact .pure fun _ hs => hs
  | cons b l ih => exact .bind (hg b) fun _ => ih

theorem Ensures.mapM {l : List β} {g : β → Procedure σ α}
    (hg : ∀ b ∈ l, Ensures P (g b) fun _ => P) : Ensures P (l.mapM g) fun _ => P := by
  induction l with
  | nil => exact .pure fun _ hs => hs
  | cons b l ih =>
    rw [List.mapM_cons]
    have tail := ih fun b hb => hg b (List.mem_cons_of_mem _ hb)
    exact .bind (hg b (List.mem_cons_self ..)) fun _ => .bind tail fun _ => .pure fun _ hs => hs

end Ensures

/-! ## What a failure leaves -/

section Aborts

/-- If `x` fails, then in a state that `R` relates to the one it started from. -/
def Aborts (R : σ → σ → Prop) (x : Procedure σ α) : Prop :=
  ∀ s e s', x.run s = (.error e, s') → R s s'

variable {R : σ → σ → Prop} {x : Procedure σ α}

theorem Moves.aborts (hx : Moves R x) : Aborts R x := fun _ _ _ failed => hx.rel failed

/-- What succeeds leaves no failure. -/
theorem Ensures.aborts (hx : Succeeds x) : Aborts R x := by
  intro s e s' failed
  obtain ⟨a, s₁, run, -⟩ := hx s trivial
  cases failed.symm.trans run

theorem Aborts.bind [IsPreorder σ R] {g : α → Procedure σ β} (hx : Moves R x)
    (hg : ∀ a, Aborts R (g a)) : Aborts R (x >>= g) := by
  intro s e s' failed
  have first := hx s
  rw [run_bind] at failed
  rcases run : x.run s with ⟨_ | a, s₁⟩ <;> rw [run] at failed first
  · cases failed
    exact first
  · exact trans_of R first (hg a s₁ e s' failed)

theorem Aborts.map {g : α → β} (hx : Aborts R x) :
    Aborts R (do return g (← x) : Procedure σ β) := by
  intro s e s' failed
  rcases run_bind_eq_error failed with failed | ⟨a, s₁, -, returned⟩
  · exact hx s e s' failed
  · cases returned

end Aborts

end Procedure

end DescLogic
