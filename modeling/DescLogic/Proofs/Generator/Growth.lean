import DescLogic.Generator.Run
import DescLogic.Proofs.Factory.Make
/-!
# How the state of a run grows

The steps of a run change the factory by forming nodes and the result by keeping one more element,
and in no other way. A relation between states that allows for these changes (`Steady`) holds
between the start and the end of a run, whatever the limits are and whether the run fails or not.

* `RunM.moves_generate`: from the changes to a whole run.
* `grows_run`: a run lets the factory grow.
* `steady_keeps`: what was kept first stays first.
* `RunM.keepsOne_step`: one candidate adds at most one element.
-/

namespace DescLogic.Generator

open Procedure

/-- The relation allows for the changes of which a run is made. -/
structure Steady (R : Progress → Progress → Prop) : Prop where
  /-- Forming a node. -/
  make : ∀ {c : Category} (n : Node Handle c), Moves R (RunM.inFactory (BuildM.make n))
  /-- Keeping an element. -/
  place : ∀ {c : Category} (rule : Rule) (h : Handle c) (s : Summary),
    Moves R (RunM.place rule h s)
  /-- Any change that leaves the factory and the elements kept alone. -/
  aside : ∀ {p q : Progress}, q.factory = p.factory → q.result.kept = p.result.kept → R p q

namespace RunM

variable {c : Category} {t : Task} {rule : Rule} {h : Handle c} {R : Progress → Progress → Prop}
  [IsPreorder Progress R] (hR : Steady R)

include hR

omit [IsPreorder Progress R] in
theorem moves_modify {f : Progress → Progress} (factory : ∀ p, (f p).factory = p.factory)
    (kept : ∀ p, (f p).result.kept = p.result.kept) : Moves R (modify f : RunM PUnit) :=
  fun p => hR.aside (factory p) (kept p)

omit [IsPreorder Progress R] in
theorem moves_inCaches {α : Type} {x : EvalM α} : Moves R (inCaches x) :=
  fun _ => hR.aside rfl rfl

theorem moves_report {e : LogEvent} : Moves R (report e) := by
  unfold report reportInsertions
  refine .bind (moves_modify hR ?_ ?_) fun _ => moves_modify hR ?_ ?_ <;> exact fun _ => rfl

theorem moves_timeIsUp : Moves R (timeIsUp t) := by
  unfold timeIsUp
  split
  · exact .pure
  · exact fun _ => hR.aside rfl rfl

theorem moves_reachedLimit : Moves R (reachedLimit t) := by
  unfold reachedLimit
  refine .bind .get fun p => .ite .pure (.bind (moves_timeIsUp hR) fun time => .ite .pure ?_)
  exact .bind (moves_report hR) fun _ =>
    .bind (moves_modify hR (fun _ => rfl) fun _ => rfl) fun _ => .pure

theorem moves_isNovel : Moves R (isNovel t h) := by
  unfold isNovel
  refine .bind .get fun p => .bind (moves_inCaches hR) fun ds => .bind .get fun p => .ite .pure ?_
  exact .bind (moves_modify hR (fun _ => rfl) fun _ => rfl) fun _ => .pure

theorem moves_keepIfNew : Moves R (keepIfNew t rule h) := by
  unfold keepIfNew
  refine .bind .get fun p => .ite .pure (.bind .lift fun e => .ite .pure ?_)
  have place {e : Entry c} : Moves R (place rule h e.summary) := hR.place rule h e.summary
  exact .ite (.bind (moves_isNovel hR) fun _ => .ite place .pure) place

theorem moves_consider {ns : LazyList AnyNode} : Moves R (consider t rule ns) := by
  induction ns with
  | nil => exact .pure
  | cons n ns ih =>
    unfold consider
    refine .bind (moves_reachedLimit hR) fun reached => .ite .pure ?_
    exact .bind (hR.make _) fun h => .bind (moves_keepIfNew hR) fun _ => ih ()

theorem moves_seed {v : Vocabulary} {rules : List Rule} : Moves R (seed t v rules) := by
  induction rules with
  | nil => exact .pure
  | cons rule rules ih =>
    unfold seed
    exact .bind .get fun p => .ite .pure (.bind (moves_consider hR) fun _ => ih)

theorem moves_applyRules {n : Nat} {rules : List Rule} : Moves R (applyRules t n rules) := by
  induction rules with
  | nil => exact .pure
  | cons rule rules ih =>
    have rest : Moves R
        (reachedLimit t >>= fun reached => if reached then pure () else applyRules t n rules) :=
      .bind (moves_reachedLimit hR) fun reached => .ite .pure ih
    unfold applyRules
    exact .ite (.bind .get fun p => .bind (moves_consider hR) fun _ => rest) rest

theorem moves_rounds {n count : Nat} : Moves R (rounds t n count) := by
  induction count generalizing n with
  | zero => exact .pure
  | succ count ih =>
    unfold rounds
    refine .bind (moves_reachedLimit hR) fun reached => .ite .pure ?_
    refine .bind (moves_applyRules hR) fun _ => .bind .get fun p => ?_
    exact .bind (moves_report hR) fun _ => ih

/-- A relation that allows for the changes of which a run is made holds between the start and the
end of a run. -/
theorem moves_generate : Moves R (generate t) := by
  unfold generate
  refine .bind .get fun p => .bind .lift fun _ => .bind .get fun p => ?_
  refine .bind (moves_seed hR) fun _ => .bind .get fun p => .bind (moves_report hR) fun _ => ?_
  refine .bind (moves_rounds hR) fun _ => .bind .get fun p => ?_
  exact .bind (.forM fun _ => moves_report hR) fun _ => .pure

end RunM

/-! ## The factory -/

/-- The factory of `q` has grown from that of `p`. -/
def Progress.Grows (p q : Progress) : Prop := p.factory.Grows q.factory

instance : IsPreorder Progress Progress.Grows where
  refl p := .refl p.factory
  trans _ _ _ := Factory.Grows.trans

theorem steady_grows : Steady Progress.Grows where
  make n p := Factory.moves_make n p.factory
  place _ _ _ p := .refl p.factory
  aside {p q} factory _ := by
    show p.factory.Grows q.factory
    rw [factory]
    exact .refl p.factory

/-- A run lets the factory grow. -/
theorem grows_run (config : Config) (states : List State) (f : Factory) (clock : Clock) :
    f.Grows (run config states f clock).factory :=
  RunM.moves_generate steady_grows (.start f)

/-! ## The elements kept -/

/-- The elements that `p` has kept are the first that `q` has kept. -/
def Progress.Keeps (p q : Progress) : Prop := p.result.kept.toList <+: q.result.kept.toList

instance : IsPreorder Progress Progress.Keeps where
  refl _ := List.prefix_rfl
  trans _ _ _ := List.IsPrefix.trans

theorem Progress.Keeps.of_kept {p q : Progress} (same : q.result.kept = p.result.kept) :
    p.Keeps q := by
  show p.result.kept.toList <+: q.result.kept.toList
  exact same ▸ List.prefix_rfl

theorem steady_keeps : Steady Progress.Keeps where
  make _ _ := List.prefix_rfl
  place {c} rule h s p := by
    show p.result.kept.toList <+: (p.result.kept.push ⟨c, s.text, rule⟩).toList
    rw [Array.toList_push]
    exact List.prefix_append ..
  aside _ kept := .of_kept kept

/-! ## One look at an element -/

/-- The result is what it was, and the clock was not read. -/
structure Progress.Rests (p q : Progress) : Prop where
  /-- The result is the same. -/
  result : q.result = p.result
  /-- The clock was read as often as before. -/
  readings : q.readings = p.readings

theorem Progress.Rests.refl (p : Progress) : p.Rests p := ⟨rfl, rfl⟩

instance : IsPreorder Progress Progress.Rests where
  refl := .refl
  trans _ _ _ hp hq := ⟨hq.result.trans hp.result, hq.readings.trans hp.readings⟩

/-- At most one more element is kept, and the clock was not read. -/
structure Progress.KeepsOne (p q : Progress) : Prop where
  /-- There is one more element, or the result is the same. -/
  result : q.result = p.result ∨ ∃ e, q.result = { p.result with kept := p.result.kept.push e }
  /-- The clock was read as often as before. -/
  readings : q.readings = p.readings

theorem Progress.Rests.keepsOne {p q : Progress} (h : p.Rests q) : p.KeepsOne q :=
  ⟨.inl h.result, h.readings⟩

theorem Progress.KeepsOne.total_le {p q : Progress} (h : p.KeepsOne q) :
    q.result.total ≤ p.result.total + 1 := by
  rcases h.result with same | ⟨e, same⟩ <;> rw [same]
  · exact Nat.le_succ _
  · rw [Result.total, Array.size_push]
    exact Nat.le_refl _

theorem Progress.KeepsOne.limitReached {p q : Progress} (h : p.KeepsOne q) :
    q.result.limitReached = p.result.limitReached := by
  rcases h.result with same | ⟨e, same⟩ <;> rw [same]

namespace RunM

variable {c : Category} {t : Task} {rule : Rule} {h : Handle c} {e : LogEvent}

theorem rests_report : Moves Progress.Rests (report e) := fun _ => ⟨rfl, rfl⟩

theorem rests_isNovel : Moves Progress.Rests (isNovel t h) := by
  unfold isNovel
  refine .bind .get fun p => .bind (fun _ => ⟨rfl, rfl⟩) fun ds => .bind .get fun p => ?_
  exact .ite .pure (.bind (fun _ => ⟨rfl, rfl⟩) fun _ => .pure)

/-- Looking at an element keeps it or leaves the result as it was, also if something fails. -/
theorem keepsOne_keepIfNew (t : Task) (rule : Rule) (h : Handle c) (p : Progress) :
    p.KeepsOne ((keepIfNew t rule h).run p).2 := by
  unfold keepIfNew
  rw [run_bind_ok run_get]
  split
  · exact (Progress.Rests.refl p).keepsOne
  cases p.factory.entry h with
  | error e => exact (Progress.Rests.refl p).keepsOne
  | ok e =>
    rw [run_bind_ok run_lift]
    split
    · exact (Progress.Rests.refl p).keepsOne
    split
    · have same := rests_isNovel (t := t) (h := h) p
      rw [run_bind]
      rcases judged : (isNovel t h).run p with ⟨_ | new, q⟩ <;> rw [judged] at same
      · exact same.keepsOne
      · cases new with
        | false => exact same.keepsOne
        | true =>
          refine ⟨.inr ⟨⟨c, e.summary.text, rule⟩, ?_⟩, same.readings⟩
          rw [← same.result]
          rfl
    · exact ⟨.inr ⟨⟨c, e.summary.text, rule⟩, rfl⟩, rfl⟩

/-- Forming a node and looking at the element keeps at most one. -/
theorem keepsOne_step (t : Task) (rule : Rule) (n : Node Handle c) (p : Progress) :
    p.KeepsOne ((inFactory (BuildM.make n) >>= keepIfNew t rule).run p).2 := by
  have made : p.Rests ((inFactory (BuildM.make n)).run p).2 := ⟨rfl, rfl⟩
  rw [run_bind]
  rcases run : (inFactory (BuildM.make n)).run p with ⟨_ | h, q⟩ <;> rw [run] at made
  · exact made.keepsOne
  · have kept := keepsOne_keepIfNew t rule h q
    exact ⟨made.result ▸ kept.result, kept.readings.trans made.readings⟩

/-- A run is stopped with a warning. -/
theorem exists_stop (e : LogEvent) (p : Progress) :
    ∃ q, (do
        report e
        modify fun p => { p with result := { p.result with limitReached := true } }
        return true : RunM Bool).run p = (.ok true, q) ∧
      q.result = { p.result with limitReached := true } :=
  ⟨_, rfl, rfl⟩

/-- A run without its checks and its last reports. -/
def search (t : Task) (v : Vocabulary) : RunM Unit := do
  seed t v t.config.rules
  let seeded := (← get).result
  report (.atThreshold .info 1 s!"seeded {seeded}")
  rounds t 1 (t.config.maxLimit - 1)

/-- What a run returns was found by its search, and nothing is added to it. -/
theorem exists_search {p p' : Progress} {r : Result} (h : (generate t).run p = (.ok r, p')) :
    ∃ q, (search t p.factory.vocabulary).run p = (.ok ⟨⟩, q) ∧ q.result = r ∧ p'.result = r := by
  unfold generate at h
  rw [run_bind_ok run_get] at h
  obtain ⟨_, _, h⟩ := run_lift_bind_eq_ok h
  rw [run_bind_ok run_get] at h
  obtain ⟨_, p₁, seeded, h⟩ := run_bind_eq_ok h
  rw [run_bind_ok run_get] at h
  obtain ⟨_, p₂, told, h⟩ := run_bind_eq_ok h
  obtain ⟨_, p₃, rounds, h⟩ := run_bind_eq_ok h
  rw [run_bind_ok run_get] at h
  obtain ⟨_, p₄, counted, h⟩ := run_bind_eq_ok h
  cases h
  have rests := Moves.rel (R := Progress.Rests) (.forM fun _ => rests_report) counted
  refine ⟨p₃, ?_, rfl, rests.result⟩
  unfold search
  rw [run_bind_ok seeded, run_bind_ok run_get, run_bind_ok told]
  exact rounds

end RunM

end DescLogic.Generator
