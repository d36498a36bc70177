import DescLogic.Proofs.Generator.Growth
/-!
# Runs and their clocks

A run reads its clock only if there is a limit on time. Without one, the clock makes no difference
to what the run does, step by step, and so none to what it leaves behind. With one, the clock is
read before each candidate, so a run has kept no more elements than it has read its clock, and it
keeps none once the clock shows that the time is up.

* `Config.TimedAlike`: clocks that a run cannot tell apart.
* `run_eq_of_timedAlike`: runs with such clocks have the same outcome.
* `Progress.Paced`: the elements kept are counted against the readings.
* `total_le_of_late`: if the time is up from some reading on, a run keeps at most as many elements
  as there are readings before it.
-/

namespace DescLogic.Generator

open Procedure

variable {t : Task} {p q : Progress} {rule : Rule} {v : Vocabulary} {config : Config}
  {states : List State} {f : Factory} {clock clock' : Clock} {n limit : Nat}

/-- There is no limit on time, or the clocks show the same. -/
def Config.TimedAlike (k : Config) (clock clock' : Clock) : Prop :=
  k.timeLimit = none ∨ clock = clock'

namespace RunM

/-- Without a limit on time the clock is left alone. -/
theorem timeIsUp_of_none (time : t.config.timeLimit = none) : timeIsUp t = pure false := by
  unfold timeIsUp
  rw [time]

/-- With a limit on time the clock is read once. -/
theorem run_timeIsUp (time : t.config.timeLimit = some limit) :
    (timeIsUp t).run p =
      (.ok (decide (limit ≤ t.clock p.readings)), { p with readings := p.readings + 1 }) := by
  unfold timeIsUp
  rw [time]
  rfl

section Unlimited

variable (time : t.config.timeLimit = none)

include time

theorem reachedLimit_clock : reachedLimit { t with clock } = reachedLimit t := by
  unfold reachedLimit
  rw [timeIsUp_of_none time, timeIsUp_of_none (t := { t with clock }) time]

theorem consider_clock (ns : LazyList AnyNode) :
    consider { t with clock } rule ns = consider t rule ns := by
  induction ns with
  | nil => rfl
  | cons n ns ih =>
    unfold consider
    rw [reachedLimit_clock time, ih]
    rfl

theorem seed_clock (rules : List Rule) : seed { t with clock } v rules = seed t v rules := by
  induction rules with
  | nil => rfl
  | cons rule rules ih =>
    unfold seed
    rw [consider_clock time, ih]

theorem applyRules_clock (n : Nat) (rules : List Rule) :
    applyRules { t with clock } n rules = applyRules t n rules := by
  induction rules with
  | nil => rfl
  | cons rule rules ih =>
    unfold applyRules
    simp only [consider_clock time, reachedLimit_clock time, ih]

theorem rounds_clock (n count : Nat) : rounds { t with clock } n count = rounds t n count := by
  induction count generalizing n with
  | zero => rfl
  | succ count ih =>
    unfold rounds
    rw [reachedLimit_clock time, applyRules_clock time, ih]

theorem generate_clock (clock : Clock) : generate { t with clock } = generate t := by
  unfold generate
  simp only [seed_clock time, rounds_clock time]

end Unlimited

end RunM

/-- Runs with clocks that they cannot tell apart have the same outcome. -/
theorem run_eq_of_timedAlike (alike : config.TimedAlike clock clock') (states : List State)
    (f : Factory) : run config states f clock = run config states f clock' := by
  rcases alike with time | rfl
  · unfold run
    rw [← RunM.generate_clock (t := ⟨config, states, clock⟩) time clock']
  · rfl

/-! ## Limited time -/

/-- At most `n` elements were kept. Until a limit is reached, there are no more of them than the
clock was read, and it was read no more than `n` times. -/
structure Progress.Paced (n : Nat) (p : Progress) : Prop where
  /-- The elements. -/
  total : p.result.total ≤ n
  /-- The elements and the readings before a limit is reached. -/
  onward : p.result.limitReached = false → p.result.total ≤ p.readings ∧ p.readings ≤ n

/-- The pace is kept. -/
def Progress.Paces (n : Nat) (p q : Progress) : Prop := p.Paced n → q.Paced n

instance : IsPreorder Progress (Progress.Paces n) where
  refl _ := id
  trans _ _ _ hp hq := hq ∘ hp

theorem Progress.Rests.paces (h : p.Rests q) : p.Paces n q := by
  intro hp
  refine ⟨h.result ▸ hp.total, ?_⟩
  rw [h.result, h.readings]
  exact hp.onward

theorem paced_start (f : Factory) : (Progress.start f).Paced n :=
  ⟨Nat.zero_le n, fun _ => ⟨Nat.le_refl 0, Nat.zero_le n⟩⟩

/-- The clock was read since the last element was kept. -/
structure Progress.Ready (n : Nat) (p : Progress) : Prop where
  /-- No limit was reached. -/
  unlimited : p.result.limitReached = false
  /-- There are fewer elements than readings. -/
  total : p.result.total < p.readings
  /-- There are at most `n` readings. -/
  readings : p.readings ≤ n

theorem Progress.Ready.paced (hp : p.Ready n) : p.Paced n where
  total := Nat.le_trans (Nat.le_of_lt hp.total) hp.readings
  onward _ := ⟨Nat.le_of_lt hp.total, hp.readings⟩

/-- One more element is in time. -/
theorem Progress.Ready.keep (hp : p.Ready n) (h : p.KeepsOne q) : q.Paced n := by
  have total : q.result.total ≤ q.readings := by
    rw [h.readings]
    exact Nat.le_trans h.total_le hp.total
  have readings : q.readings ≤ n := h.readings ▸ hp.readings
  exact ⟨Nat.le_trans total readings, fun _ => ⟨total, readings⟩⟩

namespace RunM

theorem paces_report {e : LogEvent} : Moves (Progress.Paces n) (report e) :=
  fun p => (rests_report p).paces

section Late

variable (time : t.config.timeLimit = some limit) (late : ∀ i, n ≤ i → limit ≤ t.clock i)

include time late

/-- A look at the limits reads the clock, and before the time is up there are fewer than `n`
readings. -/
theorem exists_reachedLimit_paced (hp : p.Paced n) :
    ∃ reached q, (reachedLimit t).run p = (.ok reached, q) ∧ q.Paced n ∧
      (reached = false → q.Ready n) := by
  unfold reachedLimit
  rw [run_bind_ok run_get]
  by_cases limited : p.result.limitReached = true
  · rw [if_pos limited]
    exact ⟨true, p, rfl, hp, nofun⟩
  obtain ⟨total, readings⟩ := hp.onward (by simpa using limited)
  rw [if_neg limited, run_bind_ok (run_timeIsUp time)]
  split
  · next not =>
    have early : p.readings < n := by
      by_contra later
      simp [late _ (Nat.not_lt.mp later)] at not
    have ready : Progress.Ready n { p with readings := p.readings + 1 } :=
      ⟨by simpa using limited, Nat.lt_succ_of_le total, early⟩
    exact ⟨false, _, rfl, ready.paced, fun _ => ready⟩
  · obtain ⟨q, run, result⟩ := exists_stop _ { p with readings := p.readings + 1 }
    refine ⟨true, q, run, ⟨?_, fun unlimited => ?_⟩, nofun⟩
    · rw [result]
      exact hp.total
    · rw [result] at unlimited
      cases unlimited

/-- What follows a look at the limits may keep one element. -/
theorem paces_unlessReached {x : RunM PUnit} (hx : ∀ p, p.Ready n → (x.run p).2.Paced n) :
    Moves (Progress.Paces n)
      (reachedLimit t >>= fun reached => if reached then pure ⟨⟩ else x) := by
  intro p hp
  obtain ⟨reached, q, run, paced, ready⟩ := exists_reachedLimit_paced time late hp
  rw [run_bind_ok run]
  cases reached with
  | true => exact paced
  | false => exact hx q (ready rfl)

theorem paces_consider {ns : LazyList AnyNode} :
    Moves (Progress.Paces n) (consider t rule ns) := by
  induction ns with
  | nil => exact .pure
  | cons y ns ih =>
    unfold consider
    refine paces_unlessReached time late fun p ready => ?_
    have kept := ready.keep (keepsOne_step t rule y.2 p)
    rw [← bind_assoc, run_bind]
    rcases run : (inFactory (BuildM.make y.2) >>= keepIfNew t rule).run p with ⟨_ | _, q⟩ <;>
      rw [run] at kept
    · exact kept
    · exact ih () q kept

theorem paces_seed {rules : List Rule} : Moves (Progress.Paces n) (seed t v rules) := by
  induction rules with
  | nil => exact .pure
  | cons rule rules ih =>
    unfold seed
    exact .bind .get fun p => .ite .pure (.bind (paces_consider time late) fun _ => ih)

theorem paces_applyRules {m : Nat} {rules : List Rule} :
    Moves (Progress.Paces n) (applyRules t m rules) := by
  induction rules with
  | nil => exact .pure
  | cons rule rules ih =>
    have rest : Moves (Progress.Paces n)
        (reachedLimit t >>= fun reached => if reached then pure () else applyRules t m rules) :=
      paces_unlessReached time late fun p ready => ih p ready.paced
    unfold applyRules
    exact .ite (.bind .get fun p => .bind (paces_consider time late) fun _ => rest) rest

theorem paces_rounds {m count : Nat} : Moves (Progress.Paces n) (rounds t m count) := by
  induction count generalizing m with
  | zero => exact .pure
  | succ count ih =>
    have round : Moves (Progress.Paces n) (do
        applyRules t m t.config.rules
        let r := (← get).result
        report (.atThreshold .info 1 s!"complexity {m + 1}: {r}")
        rounds t (m + 1) count) :=
      .bind (paces_applyRules time late) fun _ => .bind .get fun p => .bind paces_report fun _ => ih
    unfold rounds
    exact paces_unlessReached time late fun p ready => round p ready.paced

theorem paces_generate : Moves (Progress.Paces n) (generate t) := by
  unfold generate
  refine .bind .get fun p => .bind .lift fun _ => .bind .get fun p => ?_
  refine .bind (paces_seed time late) fun _ => .bind .get fun p => .bind paces_report fun _ => ?_
  refine .bind (paces_rounds time late) fun _ => .bind .get fun p => ?_
  exact .bind (.forM fun _ => paces_report) fun _ => .pure

end Late

end RunM

/-- **A limit on time bounds what a run keeps.** If the clock shows that the time is up from the
reading at `n` on, a run keeps at most `n` elements. -/
theorem total_le_of_late (time : config.timeLimit = some limit)
    (late : ∀ i, n ≤ i → limit ≤ clock i) {r : Result}
    (hr : (run config states f clock).result = .ok r) : r.total ≤ n := by
  have paced := RunM.paces_generate (t := ⟨config, states, clock⟩) time late _ (paced_start f)
  have generated : (RunM.generate ⟨config, states, clock⟩).run (.start f) = (.ok r, _) :=
    Prod.ext hr rfl
  obtain ⟨_, -, -, result⟩ := RunM.exists_search generated
  rw [← result]
  exact paced.total

end DescLogic.Generator
