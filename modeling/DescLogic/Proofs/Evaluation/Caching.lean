import DescLogic.Proofs.Evaluation.Denotation
import DescLogic.Proofs.Factory.Reachable
import DescLogic.Proofs.Problem
/-!
# Caching is invisible

Caches are coherent with a factory (`Caches.Coherent`) if what they remember for an element and a
state is what the element denotes in the state, and likewise for batches, whose numbers tell their
lists of states apart. Empty caches are coherent, evaluation keeps coherence whether it succeeds or
not, and a factory that grows stays coherent with the caches.

* `EvalM.answers_evaluate`, `EvalM.answers_evaluateBatch`: the outcome of an evaluation is the same
  for all coherent caches.
* `Session.evaluate_eq`: in every session, whatever calls came before, evaluations with the caches
  give what evaluation without caches gives.
-/

namespace DescLogic

open Procedure

variable {c d : Category} {f g : Factory} {S : State → Prop} {k : Caches}

namespace Memo

variable {κ α : Type} [BEq κ] [Hashable κ] {m : Memo κ α} {i : κ}

@[simp] theorem fst_lookup : (m.lookup i).1 = m.entries[i]? := by
  unfold lookup
  cases m.entries[i]? <;> rfl

@[simp] theorem entries_lookup : (m.lookup i).2.entries = m.entries := by
  unfold lookup
  cases m.entries[i]? <;> rfl

end Memo

/-- Looking something up leaves all that is remembered as it was. -/
theorem entries_modify_lookup {α : Category → Type}
    {m : PerCategory fun c => Memo (Handle c × Nat) (α c)} {i : Handle c × Nat} :
    ((m.modify c fun _ => ((m.get c).lookup i).2).get d).entries = (m.get d).entries := by
  by_cases hcd : c = d
  · subst hcd
    simp
  · simp [PerCategory.get_modify_of_ne hcd]

/-! ## Coherence -/

namespace Caches

/-- What the caches remember for an element and a state is what the element denotes there. -/
def StatesCoherent (f : Factory) (S : State → Prop) (k : Caches) : Prop :=
  ∀ {c : Category} {h : Handle c} {s : State} {d : Meaning c}, S s →
    (k.states.get c).entries[(h, s.id)]? = some d → f.Denotes h s d

/-- What the caches remember for an element and a batch is what the element denotes in the states
of the batch, and batches are told apart by their numbers. -/
structure BatchesCoherent (f : Factory) (S : State → Prop) (k : Caches) : Prop where
  /-- The denotations are right. -/
  denotes : ∀ {c : Category} {h : Handle c} {n : Nat} {ds : List (Meaning c)} {l : List State},
    (∀ s ∈ l, S s) → k.batchNumbers[l.map State.id]? = some n →
      (k.batches.get c).entries[(h, n)]? = some ds → List.Forall₂ (f.Denotes h) l ds
  /-- Only batches with a number are remembered. -/
  numbered : ∀ {c : Category} {h : Handle c} {n : Nat} {ds : List (Meaning c)},
    (k.batches.get c).entries[(h, n)]? = some ds → n < k.batchNumbers.size
  /-- Numbers are given out in order. -/
  number_lt : ∀ {ids : List Nat} {n : Nat},
    k.batchNumbers[ids]? = some n → n < k.batchNumbers.size
  /-- No number is given out twice. -/
  number_unique : ∀ {ids ids' : List Nat} {n : Nat},
    k.batchNumbers[ids]? = some n → k.batchNumbers[ids']? = some n → ids = ids'

/-- What the caches remember is what the elements denote. -/
structure Coherent (f : Factory) (S : State → Prop) (k : Caches) : Prop where
  /-- The denotations in single states are right. -/
  states : k.StatesCoherent f S
  /-- The denotations in batches are right. -/
  batches : k.BatchesCoherent f S

/-- The states are told apart by their identities. -/
def Distinct (S : State → Prop) : Prop := ∀ {s s' : State}, S s → S s' → s.id = s'.id → s = s'

theorem Distinct.map_id_injective (distinct : Distinct S) {l l' : List State} (hl : ∀ s ∈ l, S s)
    (hl' : ∀ s ∈ l', S s) (ids : l.map State.id = l'.map State.id) : l = l' := by
  induction l generalizing l' with
  | nil => simpa using ids.symm
  | cons s l ih =>
    cases l' with
    | nil => cases ids
    | cons s' l' =>
      rw [List.map_cons, List.map_cons, List.cons.injEq] at ids
      rw [List.forall_mem_cons] at hl hl'
      rw [distinct hl.1 hl'.1 ids.1, ih hl.2 hl'.2 ids.2]

/-- Caches that remember nothing are coherent. -/
theorem coherent_of_forgotten (states : ∀ c, (k.states.get c).entries = ∅)
    (batches : ∀ c, (k.batches.get c).entries = ∅) (numbers : k.batchNumbers = ∅) :
    k.Coherent f S where
  states := by
    intro c h s d _ found
    simp [states] at found
  batches := by
    constructor <;> simp [batches, numbers]

theorem coherent_empty : (∅ : Caches).Coherent f S :=
  coherent_of_forgotten (fun c => by cases c <;> rfl) (fun c => by cases c <;> rfl) rfl

theorem coherent_clear : k.clear.Coherent f S :=
  coherent_of_forgotten (fun c => by cases c <;> rfl) (fun c => by cases c <;> rfl) rfl

/-- A factory that grows stays coherent with the caches. -/
theorem Coherent.extends (hk : k.Coherent f S) (hfg : f.Extends g) : k.Coherent g S where
  states := fun hs found => hfg.denotes (hk.states hs found)
  batches :=
    { hk.batches with
      denotes := fun hl hn found => (hk.batches.denotes hl hn found).imp fun _ _ => hfg.denotes }

end Caches

/-! ## Single states -/

namespace EvalM

open Caches

variable {h : Handle c} {s : State} {b : PerCategory BatchMemo}
  {numbers : Std.HashMap (List Nat) Nat}

theorem run_lookUp :
    (lookUp h s).run k =
      (.ok (k.states.get c).entries[(h, s.id)]?,
        { k with states := k.states.modify c fun _ => ((k.states.get c).lookup (h, s.id)).2 }) := by
  rw [← Memo.fst_lookup]
  rfl

/-- The caches are right about single states, and what they hold about batches is as given. -/
def Frame (f : Factory) (S : State → Prop) (b : PerCategory BatchMemo)
    (numbers : Std.HashMap (List Nat) Nat) (k : Caches) : Prop :=
  k.StatesCoherent f S ∧ k.batches = b ∧ k.batchNumbers = numbers

theorem frame_empty : Frame f S (∅ : Caches).batches (∅ : Caches).batchNumbers ∅ :=
  ⟨coherent_empty.states, rfl, rfl⟩

theorem Frame.lookUp (hk : Frame f S b numbers k) :
    Frame f S b numbers ((lookUp h s).run k).2 := by
  obtain ⟨states, rfl, rfl⟩ := hk
  refine ⟨?_, rfl, rfl⟩
  intro d h' s' v hs' found
  rw [run_lookUp, entries_modify_lookup] at found
  exact states hs' found

theorem Frame.remember (distinct : Distinct S) (hk : Frame f S b numbers k) (hs : S s)
    {v : Meaning c} (hv : f.Denotes h s v) :
    Frame f S b numbers ((remember h s v).run k).2 := by
  obtain ⟨states, rfl, rfl⟩ := hk
  refine ⟨?_, rfl, rfl⟩
  intro d h' s' v' hs' found
  by_cases hcd : c = d
  · subst hcd
    change ((k.states.modify c (·.insert (h, s.id) v)).get c).entries[(h', s'.id)]? = _ at found
    rw [PerCategory.get_modify_self, Memo.insert, Std.HashMap.getElem?_insert] at found
    by_cases key : ((h, s.id) == (h', s'.id)) = true
    · rw [if_pos key] at found
      obtain ⟨rfl, ids⟩ := Prod.mk.inj (eq_of_beq key)
      cases found
      rw [← distinct hs hs' ids]
      exact hv
    · rw [if_neg key] at found
      exact states hs' found
  · refine states hs' ?_
    change ((k.states.modify c (·.insert (h, s.id) v)).get d).entries[(h', s'.id)]? = _ at found
    rwa [PerCategory.get_modify_of_ne hcd] at found

/-- What is found in the caches is what would be computed otherwise. -/
theorem answers_lookUp {y : EvalM (Meaning c)} {r : Except Error (Meaning c)} (hs : S s)
    (found : ∀ v, f.Denotes h s v → r = .ok v) (hy : Answers (Frame f S b numbers) y r) :
    Answers (Frame f S b numbers)
      (do
        match ← lookUp h s with
        | some v => return v
        | none => y) r := by
  intro k hk
  have after := hk.lookUp (h := h) (s := s)
  rw [run_bind_ok run_lookUp]
  rw [run_lookUp] at after
  cases hv : (k.states.get c).entries[(h, s.id)]? with
  | none => exact hy _ after
  | some v => exact ⟨(found v (hk.1 hs hv)).symm, after⟩

theorem answers_meaning (distinct : Distinct S) (hs : S s) {t : Term c}
    (ht : f.Spells h t) {fuel : Nat} (hfuel : t.complexity ≤ fuel) :
    Answers (Frame f S b numbers) (meaning f s fuel h) (.ok (t.denote s)) := by
  induction t using Term.induction generalizing fuel with
  | mk o ts ih =>
    cases fuel with
    | zero =>
      have := Term.one_le_complexity (.mk o ts)
      omega
    | succ fuel =>
      have denotes : f.Denotes h s ((Term.mk o ts).denote s) := ⟨_, ht, rfl⟩
      refine answers_lookUp hs ?_ ?_
      · rintro v ⟨t, ht', rfl⟩
        rw [ht.unique ht']
      · cases ht with
        | @intro _ _ _ hs' info _ he hts =>
          have operands : hs'.Rel
              (fun h t => Answers (Frame f S b numbers) (meaning f s fuel h) (.ok (t.denote s)))
              ts := by
            refine hts.imp_of_all_right (ih.and (Term.complexity_lt ⟨o, ts⟩)) ?_
            rintro _ h t ⟨ih, hlt⟩ ht
            exact ih ht (Nat.le_of_lt_succ (Nat.lt_of_lt_of_le hlt hfuel))
          have stored : f.entry h = .ok ⟨⟨o, hs'⟩, info⟩ := by
            rw [Factory.entry, he]
          rw [stored]
          refine .bind .lift (.bind (answers_ofNode operands) (.bind (a := ⟨⟩) ?_ .pure))
          exact fun k hk => ⟨rfl, hk.remember distinct hs denotes⟩

/-- An element that is not stored has no denotation. -/
theorem answers_meaning_foreign (hs : S s) (hf : f.get? h = none) (fuel : Nat) :
    Answers (Frame f S b numbers) (meaning f s fuel h) (.error (.foreignElement c h.index)) := by
  cases fuel with
  | zero => exact fun k hk => ⟨rfl, hk⟩
  | succ fuel =>
    have foreign : f.entry h = .error (.foreignElement c h.index) := by
      rw [Factory.entry, hf]
    refine answers_lookUp hs ?_ ?_
    · rintro v ⟨t, ht, -⟩
      obtain ⟨e, he⟩ := ht.stored
      rw [hf] at he
      cases he
    · rw [foreign]
      exact .bind_error .lift

theorem depthBound_eq (hf : f.Valid) {t : Term c} (ht : f.Spells h t) :
    depthBound f h = t.complexity := by
  obtain ⟨e, he⟩ := ht.stored
  rw [depthBound, he, Term.complexity, ← hf.summary_eq he ht]
  rfl

/-- The caches do not bear on the outcome of an evaluation. -/
theorem answers_evaluate_frame (distinct : Distinct S) (hf : f.Valid) (hs : S s) :
    Answers (Frame f S b numbers) (evaluate f h s) (f.evaluate h s) := by
  have outcome : ∃ r, ∀ b numbers, Answers (Frame f S b numbers) (evaluate f h s) r := by
    unfold evaluate
    cases checkVocabulary f s with
    | error e => exact ⟨.error e, fun _ _ => .bind_error .lift⟩
    | ok _ =>
      cases he : f.get? h with
      | none => exact ⟨_, fun _ _ => .bind .lift (answers_meaning_foreign hs he _)⟩
      | some e =>
        obtain ⟨t, ht, -⟩ := hf.exists_spells he
        have bound := Nat.le_of_eq (depthBound_eq hf ht).symm
        exact ⟨_, fun _ _ => .bind .lift (answers_meaning distinct hs ht bound)⟩
  obtain ⟨r, hr⟩ := outcome
  have plain := (hr _ _ ∅ frame_empty).1
  rw [Factory.evaluate, plain]
  exact hr b numbers

theorem Frame.coherent {k' : Caches} (hk : k.Coherent f S)
    (hk' : Frame f S k.batches k.batchNumbers k') : k'.Coherent f S := by
  obtain ⟨states, batches, numbers⟩ := hk'
  refine ⟨states, ?_⟩
  constructor
  · rw [batches, numbers]
    exact hk.batches.denotes
  · rw [batches, numbers]
    exact hk.batches.numbered
  · rw [numbers]
    exact hk.batches.number_lt
  · rw [numbers]
    exact hk.batches.number_unique

theorem answers_evaluate (distinct : Distinct S) (hf : f.Valid) (hs : S s) :
    Answers (fun k => k.Coherent f S) (evaluate f h s) (f.evaluate h s) := by
  intro k hk
  have ⟨outcome, frame⟩ := answers_evaluate_frame (h := h) distinct hf hs k ⟨hk.states, rfl, rfl⟩
  exact ⟨outcome, frame.coherent hk⟩

end EvalM

namespace Factory

open Caches EvalM

variable {h : Handle c} {s : State}

theorem evaluate_of_mismatch {e : Error} (check : checkVocabulary f s = .error e) :
    f.evaluate h s = .error e := by
  unfold Factory.evaluate EvalM.evaluate
  rw [check]
  rfl

/-- The outcome of an evaluation without caches is the denotation of the element's term. -/
theorem evaluate_of_spells (hf : f.Valid) (check : checkVocabulary f s = .ok ()) {t : Term c}
    (ht : f.Spells h t) : f.evaluate h s = .ok (t.denote s) := by
  have alone : Distinct (· = s) := by
    rintro s₁ s₂ rfl rfl _
    rfl
  have bound := Nat.le_of_eq (depthBound_eq hf ht).symm
  unfold Factory.evaluate EvalM.evaluate
  rw [check]
  exact (answers_meaning alone rfl ht bound ∅ frame_empty).1

theorem evaluate_of_foreign (check : checkVocabulary f s = .ok ()) (hh : f.get? h = none) :
    f.evaluate h s = .error (.foreignElement c h.index) := by
  unfold Factory.evaluate EvalM.evaluate
  rw [check]
  exact (answers_meaning_foreign (S := (· = s)) rfl hh _ ∅ frame_empty).1

theorem evaluate_eq_ok_iff (hf : f.Valid) {v : Meaning c} :
    f.evaluate h s = .ok v ↔ checkVocabulary f s = .ok () ∧ f.Denotes h s v := by
  constructor
  · intro hv
    cases check : checkVocabulary f s with
    | error e =>
      rw [evaluate_of_mismatch check] at hv
      cases hv
    | ok _ =>
      cases he : f.get? h with
      | none =>
        rw [evaluate_of_foreign check he] at hv
        cases hv
      | some e =>
        obtain ⟨t, ht, -⟩ := hf.exists_spells he
        rw [evaluate_of_spells hf check ht] at hv
        cases hv
        exact ⟨rfl, t, ht, rfl⟩
  · rintro ⟨check, t, ht, rfl⟩
    exact evaluate_of_spells hf check ht

end Factory

/-! ## Batches -/

namespace Caches

variable {ids : List Nat} {n : Nat}

/-- A batch gets a number, and what was remembered before stays right. -/
theorem Coherent.batchNumber (hk : k.Coherent f S) (ids : List Nat) :
    (k.batchNumber ids).2.Coherent f S ∧
      (k.batchNumber ids).2.batchNumbers[ids]? = some (k.batchNumber ids).1 := by
  unfold Caches.batchNumber
  cases found : k.batchNumbers[ids]? with
  | some n => exact ⟨hk, found⟩
  | none =>
    have size : (k.batchNumbers.insert ids k.batchNumbers.size).size = k.batchNumbers.size + 1 := by
      rw [Std.HashMap.size_insert, if_neg]
      rw [Std.HashMap.mem_iff_isSome_getElem?, found]
      simp
    have number : ∀ {ids' : List Nat} {n : Nat},
        (k.batchNumbers.insert ids k.batchNumbers.size)[ids']? = some n →
          (ids' = ids ∧ n = k.batchNumbers.size) ∨ k.batchNumbers[ids']? = some n := by
      intro ids' n hn
      rw [Std.HashMap.getElem?_insert] at hn
      by_cases same : (ids == ids') = true
      · rw [if_pos same] at hn
        exact .inl ⟨(eq_of_beq same).symm, (Option.some.inj hn).symm⟩
      · rw [if_neg same] at hn
        exact .inr hn
    refine ⟨⟨hk.states, ?_⟩, by simp⟩
    constructor
    · intro c h n ds l hl hn hds
      have := hk.batches.numbered hds
      rcases number hn with ⟨-, rfl⟩ | hn
      · omega
      · exact hk.batches.denotes hl hn hds
    · intro c h n ds hds
      have := hk.batches.numbered hds
      simp only [size]
      omega
    · intro ids' n hn
      simp only [size]
      rcases number hn with ⟨-, rfl⟩ | hn
      · omega
      · have := hk.batches.number_lt hn
        omega
    · intro ids₁ ids₂ n h₁ h₂
      rcases number h₁ with ⟨rfl, hn⟩ | old₁ <;> rcases number h₂ with ⟨rfl, hn'⟩ | old₂
      · rfl
      · have := hk.batches.number_lt old₂
        omega
      · have := hk.batches.number_lt old₁
        omega
      · exact hk.batches.number_unique old₁ old₂

end Caches

namespace EvalM

open Caches

variable {h : Handle c} {l : List State} {n : Nat}

theorem run_lookUpBatch :
    (lookUpBatch h n).run k =
      (.ok (k.batches.get c).entries[(h, n)]?,
        { k with batches := k.batches.modify c fun _ => ((k.batches.get c).lookup (h, n)).2 }) := by
  rw [← Memo.fst_lookup]
  rfl

theorem coherent_lookUpBatch (hk : k.Coherent f S) : ((lookUpBatch h n).run k).2.Coherent f S := by
  have entries : ∀ d, (((lookUpBatch h n).run k).2.batches.get d).entries =
      (k.batches.get d).entries := by
    intro d
    rw [run_lookUpBatch]
    exact entries_modify_lookup
  refine ⟨hk.states, ?_⟩
  constructor
  · intro d h' n' ds l hl hn found
    rw [entries] at found
    exact hk.batches.denotes hl hn found
  · intro d h' n' ds found
    rw [entries] at found
    exact hk.batches.numbered found
  · exact hk.batches.number_lt
  · exact hk.batches.number_unique

theorem coherent_rememberBatch (distinct : Distinct S) (hk : k.Coherent f S) (hl : ∀ s ∈ l, S s)
    (hn : k.batchNumbers[l.map State.id]? = some n) {ds : List (Meaning c)}
    (hds : List.Forall₂ (f.Denotes h) l ds) : ((rememberBatch h n ds).run k).2.Coherent f S := by
  have found_cases : ∀ {d : Category} {h' : Handle d} {n' : Nat} {ds' : List (Meaning d)},
      ((k.batches.modify c (·.insert (h, n) ds)).get d).entries[(h', n')]? = some ds' →
        n' = n ∧ (∀ l', l' = l → List.Forall₂ (f.Denotes h') l' ds') ∨
          (k.batches.get d).entries[(h', n')]? = some ds' := by
    intro d h' n' ds' found
    by_cases hcd : c = d
    · subst hcd
      rw [PerCategory.get_modify_self, Memo.insert, Std.HashMap.getElem?_insert] at found
      by_cases key : ((h, n) == (h', n')) = true
      · rw [if_pos key] at found
        obtain ⟨rfl, rfl⟩ := Prod.mk.inj (eq_of_beq key)
        cases found
        refine .inl ⟨rfl, ?_⟩
        rintro _ rfl
        exact hds
      · rw [if_neg key] at found
        exact .inr found
    · rw [PerCategory.get_modify_of_ne hcd] at found
      exact .inr found
  refine ⟨hk.states, ?_⟩
  constructor
  · intro d h' n' ds' l' hl' hn' found
    rcases found_cases found with ⟨rfl, same⟩ | found
    · exact same l' (distinct.map_id_injective hl' hl (hk.batches.number_unique hn' hn))
    · exact hk.batches.denotes hl' hn' found
  · intro d h' n' ds' found
    rcases found_cases found with ⟨rfl, -⟩ | found
    · exact hk.batches.number_lt hn
    · exact hk.batches.numbered found
  · exact hk.batches.number_lt
  · exact hk.batches.number_unique

theorem mapM_evaluate_eq_ok_iff (hf : f.Valid) (checks : ∀ s ∈ l, checkVocabulary f s = .ok ())
    {ds : List (Meaning c)} :
    l.mapM (f.evaluate h) = .ok ds ↔ List.Forall₂ (f.Denotes h) l ds := by
  rw [mapM_eq_ok_iff]
  induction l generalizing ds with
  | nil => simp
  | cons s l ih =>
    rw [List.forall_mem_cons] at checks
    rw [List.forall₂_cons_left_iff, List.forall₂_cons_left_iff]
    simp only [ih checks.2, Factory.evaluate_eq_ok_iff (s := s) hf, checks.1, true_and]

/-- Where plain evaluation succeeds, no state is over another vocabulary. -/
theorem checks_of_mapM_evaluate (hf : f.Valid) {ds : List (Meaning c)}
    (hds : l.mapM (f.evaluate h) = .ok ds) : l.forM (checkVocabulary f) = .ok () := by
  rw [mapM_eq_ok_iff] at hds
  rw [forM_eq_ok_iff]
  induction hds with
  | nil => simp
  | cons hd _ ih =>
    rw [List.forall_mem_cons]
    exact ⟨((Factory.evaluate_eq_ok_iff hf).mp hd).1, ih⟩

/-- The denotations in the states of a batch are those in the single states. -/
theorem answers_mapM_meaning (distinct : Distinct S) (hf : f.Valid) (hl : ∀ s ∈ l, S s)
    (checks : ∀ s ∈ l, checkVocabulary f s = .ok ()) {b : PerCategory BatchMemo}
    {numbers : Std.HashMap (List Nat) Nat} :
    Answers (Frame f S b numbers) (l.mapM fun s => meaning f s (depthBound f h) h)
      (l.mapM (f.evaluate h)) := by
  refine .mapM fun s hs => ?_
  have whole : Answers (Frame f S b numbers) (evaluate f h s) (f.evaluate h s) :=
    answers_evaluate_frame distinct hf (hl s hs)
  unfold evaluate at whole
  rw [checks s hs] at whole
  exact whole

/-- What is computed for a batch is right and may be remembered. -/
theorem compute_batch (distinct : Distinct S) (hf : f.Valid) (hl : ∀ s ∈ l, S s)
    (checks : ∀ s ∈ l, checkVocabulary f s = .ok ()) :
    Answers (fun k => k.Coherent f S ∧ k.batchNumbers[l.map State.id]? = some n)
      (do
        let ds ← l.mapM fun s => meaning f s (depthBound f h) h
        rememberBatch h n ds
        return ds)
      (l.mapM (f.evaluate h)) := by
  rintro k ⟨hk, hn⟩
  obtain ⟨outcome, frame⟩ :=
    answers_mapM_meaning (h := h) distinct hf hl checks k ⟨hk.states, rfl, rfl⟩
  have hk' := frame.coherent hk
  have hn' := frame.2.2 ▸ hn
  cases hds : l.mapM (f.evaluate h) with
  | error e =>
    rw [hds] at outcome
    rw [run_bind_error (Prod.ext outcome rfl)]
    exact ⟨rfl, hk', hn'⟩
  | ok ds =>
    rw [hds] at outcome
    rw [run_bind_ok (Prod.ext outcome rfl)]
    have denotes := (mapM_evaluate_eq_ok_iff hf checks).mp hds
    exact ⟨rfl, coherent_rememberBatch distinct hk' hl hn' denotes, hn'⟩

/-- The caches do not bear on the outcome of the evaluation of a batch. -/
theorem answers_evaluateBatch (distinct : Distinct S) (hf : f.Valid) (hl : ∀ s ∈ l, S s) :
    Answers (fun k => k.Coherent f S) (evaluateBatch f h l)
      (l.forM (checkVocabulary f) >>= fun _ => l.mapM (f.evaluate h)) := by
  intro k hk
  unfold evaluateBatch
  cases check : l.forM (checkVocabulary f) with
  | error e => exact ⟨rfl, hk⟩
  | ok _ =>
    have checks := forM_eq_ok_iff.mp check
    obtain ⟨hk, hn⟩ := hk.batchNumber (l.map State.id)
    rw [run_bind_ok run_lift, run_bind_ok run_modifyGet]
    generalize k.batchNumber (l.map State.id) = numbered at hk hn
    obtain ⟨n, k⟩ := numbered
    have looked := coherent_lookUpBatch (h := h) (n := n) hk
    rw [run_bind_ok run_lookUpBatch]
    rw [run_lookUpBatch] at looked
    cases found : (k.batches.get c).entries[(h, n)]? with
    | some ds =>
      have denotes := hk.batches.denotes hl hn found
      exact ⟨((mapM_evaluate_eq_ok_iff hf checks).mpr denotes).symm, looked⟩
    | none =>
      obtain ⟨outcome, coherent, -⟩ := compute_batch distinct hf hl checks _ ⟨looked, hn⟩
      exact ⟨outcome, coherent⟩

end EvalM

/-! ## Sessions -/

/-- A factory and the caches that are used with it. -/
structure Session where
  /-- The factory. -/
  factory : Factory
  /-- The caches. -/
  caches : Caches

namespace Session

open Caches

/-- What a call leaves of a session, whether it succeeds or not. States are among `S`. -/
inductive Step (S : State → Prop) (x : Session) : Session → Prop where
  /-- The evaluation of an element in a state. -/
  | evaluate {c : Category} (h : Handle c) {s : State} : S s →
      Step S x ⟨x.factory, ((EvalM.evaluate x.factory h s).run x.caches).2⟩
  /-- The evaluation of an element in a batch. -/
  | evaluateBatch {c : Category} (h : Handle c) {l : List State} : (∀ s ∈ l, S s) →
      Step S x ⟨x.factory, ((EvalM.evaluateBatch x.factory h l).run x.caches).2⟩
  /-- Forgetting what is remembered. -/
  | clear : Step S x ⟨x.factory, x.caches.clear⟩
  /-- A call that may store elements. -/
  | call {g : Factory} : x.factory.Call g → Step S x ⟨g, x.caches⟩

/-- What a list of calls leaves of a session. -/
def Run (S : State → Prop) (x y : Session) : Prop := Relation.ReflTransGen (Step S) x y

/-- The factory is valid and the caches are coherent with it. -/
structure Coherent (S : State → Prop) (x : Session) : Prop where
  /-- The factory is valid. -/
  valid : x.factory.Valid
  /-- The caches are right. -/
  caches : x.caches.Coherent x.factory S

theorem Step.coherent (distinct : Distinct S) {x y : Session} (hx : x.Coherent S)
    (step : x.Step S y) : y.Coherent S := by
  cases step with
  | evaluate h hs => exact ⟨hx.valid, (EvalM.answers_evaluate distinct hx.valid hs _ hx.caches).2⟩
  | evaluateBatch h hl =>
    exact ⟨hx.valid, (EvalM.answers_evaluateBatch distinct hx.valid hl _ hx.caches).2⟩
  | clear => exact ⟨hx.valid, coherent_clear⟩
  | call hg => exact ⟨hg.grows.valid hx.valid, hx.caches.extends hg.grows.extends⟩

theorem Run.coherent (distinct : Distinct S) {x y : Session} (hx : x.Coherent S)
    (run : x.Run S y) : y.Coherent S := by
  induction run with
  | refl => exact hx
  | tail _ step ih => exact step.coherent distinct ih

/-- **Caching is invisible.** In a session that starts without denotations, whatever calls came
before, an evaluation with the caches has the outcome of the evaluation without, and the evaluation
of a batch succeeds with the values that evaluation without caches gives state by state. -/
theorem evaluate_eq {v : Vocabulary} {f : Factory} (hf : Factory.Reachable v f)
    (distinct : Distinct S)
    {x : Session} (run : Run S ⟨f, ∅⟩ x) :
    (∀ {c : Category} (h : Handle c) {s : State}, S s →
      ((EvalM.evaluate x.factory h s).run x.caches).1 = x.factory.evaluate h s) ∧
    (∀ {c : Category} (h : Handle c) {l : List State} {ds : List (Meaning c)}, (∀ s ∈ l, S s) →
      (((EvalM.evaluateBatch x.factory h l).run x.caches).1 = .ok ds ↔
        l.mapM (x.factory.evaluate h) = .ok ds)) := by
  have coherent := run.coherent distinct ⟨hf.valid, coherent_empty⟩
  constructor
  · intro c h s hs
    exact (EvalM.answers_evaluate distinct coherent.valid hs _ coherent.caches).1
  · intro c h l ds hl
    rw [(EvalM.answers_evaluateBatch distinct coherent.valid hl _ coherent.caches).1]
    constructor
    · intro hds
      cases check : l.forM (EvalM.checkVocabulary x.factory) with
      | error e =>
        rw [check] at hds
        cases hds
      | ok _ =>
        rw [check] at hds
        exact hds
    · intro hds
      rw [EvalM.checks_of_mapM_evaluate coherent.valid hds]
      exact hds

/-- A role that denotes different pairs in two states. It was evaluated in one of them alone and in
a batch of both, and so the caches remember it when it is evaluated in each state and in the batch
once more. -/
theorem evaluate_eq_repeated :
    let p : Predicate := ⟨"p", 2, false, 0⟩
    let n : Node Handle .role := ⟨.primitiveRole, .predicate p (.position 0 (.position 1 .nil))⟩
    let f := ((BuildM.make n).run (Factory.empty twoPaths.vocabulary)).2
    let h : Handle .role := ⟨0⟩
    let batch := [onePath, twoPaths, onePath]
    let k := ((EvalM.evaluate f h twoPaths).run ∅).2
    let k' := ((EvalM.evaluateBatch f h batch).run k).2
    ((EvalM.evaluate f h onePath).run k').1 = .ok (.ofList 3 [(0, 1)]) ∧
      ((EvalM.evaluate f h twoPaths).run k').1 = .ok (.ofList 3 [(0, 1), (1, 2)]) ∧
      ((EvalM.evaluateBatch f h batch).run k').1 =
        .ok [.ofList 3 [(0, 1)], .ofList 3 [(0, 1), (1, 2)], .ofList 3 [(0, 1)]] := by
  intro p n f h batch k k'
  let S : State → Prop := fun s => s ∈ [onePath, twoPaths]
  have distinct : Distinct S := fun h₁ h₂ same => drawn_onePath.eq_of_id_eq _ h₁ _ h₂ same
  have one : S onePath := by simp [S]
  have two : S twoPaths := by simp [S]
  have both : ∀ s ∈ batch, S s := by simp [batch, S]
  have form : Step S ⟨Factory.empty twoPaths.vocabulary, ∅⟩ ⟨f, ∅⟩ := .call (.make n)
  have run : Run S ⟨Factory.empty twoPaths.vocabulary, ∅⟩ ⟨f, k'⟩ :=
    ((Relation.ReflTransGen.single form).tail (.evaluate h two)).tail (.evaluateBatch h both)
  obtain ⟨single, all⟩ := evaluate_eq (v := twoPaths.vocabulary) .refl distinct run
  -- What the role denotes is read off its term.
  let t : Term .role := .mk .primitiveRole (.predicate p (.position 0 (.position 1 .nil)))
  have hf : Factory.Reachable twoPaths.vocabulary f := .single (.make n)
  have spells : f.Spells h t :=
    .intro (Factory.get?_make_empty rfl) (.predicate p (.position 0 (.position 1 .nil)))
  have value {s : State} (own : s.vocabulary.id = twoPaths.vocabulary.id) :
      f.evaluate h s = .ok (t.denote s) := by
    refine Factory.evaluate_of_spells hf.valid ?_ spells
    rw [EvalM.checkVocabulary, hf.vocabulary, own, if_pos rfl]
  have denotes_one : t.denote onePath = .ofList 3 [(0, 1)] := by decide +kernel
  have denotes_two : t.denote twoPaths = .ofList 3 [(0, 1), (1, 2)] := by decide +kernel
  rw [← denotes_one, ← denotes_two]
  refine ⟨(single h one).trans (value rfl), (single h two).trans (value rfl), (all h both).mpr ?_⟩
  simp only [batch, List.mapM_cons, List.mapM_nil, value (s := onePath) rfl,
    value (s := twoPaths) rfl]
  rfl

end Session

end DescLogic
