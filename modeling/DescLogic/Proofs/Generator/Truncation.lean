import DescLogic.Proofs.Generator.Success
import Mathlib.Algebra.BigOperators.Group.List.Basic
import Mathlib.Algebra.Ring.Nat
/-!
# Limits on elements

A run with a limit on elements goes the same way as the run without that limit until it has kept so
many elements. It notices this at the next look at the limits, which comes before anything else is
kept, and from then on it keeps nothing. So what it keeps are the first elements that the other run
keeps.

* `Cuts k b x y`: with fewer than `b` elements, `x` does what `y` does, or it stops at `k` elements
  that `y` keeps too.
* `Idle`: steps that do nothing once a limit is reached, which is what may follow a step that stops.
* `cuts_search`: the steps of a run, from one candidate to all rounds.
* `run_truncated`: whole runs.
-/

namespace DescLogic.Generator

open Procedure

variable {c : Category} {v : Vocabulary} {f : Factory} {p : Progress} {h : Handle c} {k b : Nat}
  {rule : Rule} {config : Config} {states : List State} {clock clock' : Clock}

/-! ## Steps after a limit was reached -/

/-- Once a limit is reached, `x` succeeds and leaves the result as it is. -/
def Idle (x : RunM PUnit) : Prop :=
  ∀ r : Result, r.limitReached = true →
    Ensures (fun p => p.result = r) x fun _ p => p.result = r

theorem Idle.pure : Idle (pure ⟨⟩) := fun _ _ => .pure fun _ hp => hp

theorem Idle.bind {x : RunM PUnit} {g : PUnit → RunM PUnit} (hx : Idle x) (hg : Idle (g ⟨⟩)) :
    Idle (x >>= g) :=
  fun r hr => (hx r hr).bind fun _ => hg r hr

theorem Idle.get_bind {g : Progress → RunM PUnit}
    (hg : ∀ p, p.result.limitReached = true → Idle (g p)) : Idle (get >>= g) := by
  refine fun r hr => .get_bind fun p hp => ?_
  subst hp
  exact (hg p hr _ hr).imp (fun _ => congrArg Progress.result) fun _ _ hq => hq

namespace RunM

variable {t : Task}

theorem idle_report {e : LogEvent} : Idle (report e) :=
  fun _ _ => ensures_report fun _ _ _ hp => hp

/-- What comes after a look at the limits is left out. -/
theorem idle_unlessReached {x : RunM PUnit} :
    Idle (reachedLimit t >>= fun reached => if reached then pure ⟨⟩ else x) := by
  rintro _ reached p rfl
  refine ⟨⟨⟩, p, ?_, rfl⟩
  unfold reachedLimit
  rw [bind_assoc, run_bind_ok run_get, if_pos reached]
  rfl

theorem idle_consider {ns : LazyList AnyNode} : Idle (consider t rule ns) := by
  cases ns with
  | nil => exact .pure
  | cons n ns => exact idle_unlessReached

theorem idle_seed {rules : List Rule} : Idle (seed t v rules) := by
  cases rules with
  | nil => exact .pure
  | cons rule rules =>
    unfold seed
    refine .get_bind fun p reached => ?_
    rw [if_pos reached]
    exact .pure

theorem idle_rounds {n count : Nat} : Idle (rounds t n count) := by
  cases count with
  | zero => exact .pure
  | succ count => exact idle_unlessReached

end RunM

/-- A report of what was found so far. -/
theorem Idle.told {e : Progress → LogEvent} {x : RunM PUnit} (hx : Idle x) :
    Idle (get >>= fun p => RunM.report (e p) >>= fun _ => x) :=
  .get_bind fun _ _ => .bind RunM.idle_report hx

/-! ## Steps of two runs -/

/-- The run goes on and has kept fewer than `b` elements. -/
structure Progress.Below (p : Progress) (b : Nat) : Prop where
  /-- No limit was reached. -/
  unlimited : p.result.limitReached = false
  /-- There are fewer than `b` elements. -/
  total : p.result.total < b

/-- The run was stopped with `k` elements. -/
structure Progress.StoppedAt (p : Progress) (k : Nat) : Prop where
  /-- A limit was reached. -/
  limited : p.result.limitReached = true
  /-- There are `k` elements. -/
  total : p.result.total = k

/-- One more element is kept at most. -/
theorem Progress.Below.keep {q : Progress} (hp : p.Below k) (h : p.KeepsOne q) :
    q.Below (k + 1) where
  unlimited := h.limitReached.trans hp.unlimited
  total := Nat.lt_of_le_of_lt h.total_le (Nat.succ_lt_succ hp.total)

/-- From states with fewer than `b` elements, `x` does what `y` does and keeps up to `k` elements,
or it stops at `k` elements that are the first that `y` keeps. Right after a look at the limits `b`
is `k`, so that one more element may be kept, and elsewhere it is `k + 1`. -/
structure Cuts (k b : Nat) (x y : RunM PUnit) : Prop where
  /-- What was kept before is kept first. -/
  keeps : Moves Progress.Keeps y
  /-- The two go the same way, or the first stops. -/
  run : ∀ p, p.Below b →
    (x.run p = y.run p ∧ ∀ p', x.run p = (.ok ⟨⟩, p') → p'.Below (k + 1)) ∨
      ∃ p', x.run p = (.ok ⟨⟩, p') ∧ p'.StoppedAt k ∧ p'.Keeps (y.run p).2

namespace Cuts

theorem pure : Cuts k (k + 1) (pure ⟨⟩) (pure ⟨⟩) where
  keeps := .pure
  run p hp := by
    refine .inl ⟨rfl, ?_⟩
    rintro _ ⟨⟩
    exact hp

theorem mono {x y : RunM PUnit} {b' : Nat} (h : Cuts k b x y) (hb : b' ≤ b) : Cuts k b' x y where
  keeps := h.keeps
  run p hp := h.run p ⟨hp.unlimited, Nat.lt_of_lt_of_le hp.total hb⟩

theorem ite {q : Prop} [Decidable q] {x x' y y' : RunM PUnit} (h : Cuts k b x y)
    (h' : Cuts k b x' y') : Cuts k b (if q then x else x') (if q then y else y') := by
  split
  · exact h
  · exact h'

/-- A step that both take. -/
theorem same {x : RunM PUnit} (keeps : Moves Progress.Keeps x)
    (below : ∀ p, p.Below b → (x.run p).2.Below (k + 1)) : Cuts k b x x where
  keeps := keeps
  run p hp := by
    refine .inl ⟨rfl, fun p' run => ?_⟩
    have after := below p hp
    rwa [run] at after

/-- What follows a step that may stop does nothing then. -/
theorem bind {x y : RunM PUnit} {g g' : PUnit → RunM PUnit} (hx : Cuts k b x y)
    (idle : Idle (g ⟨⟩)) (hg : Cuts k (k + 1) (g ⟨⟩) (g' ⟨⟩)) :
    Cuts k b (x >>= g) (y >>= g') where
  keeps := .bind hx.keeps fun _ => hg.keeps
  run p hp := by
    rcases hx.run p hp with ⟨same, below⟩ | ⟨p', run, stopped, keeps⟩
    · -- The two are in one state, or both have failed.
      rw [run_bind, run_bind, ← same]
      rcases hrun : x.run p with ⟨_ | _, p'⟩
      · exact .inl ⟨rfl, fun _ failed => nomatch failed⟩
      · exact hg.run p' (below p' hrun)
    · -- The first does nothing more, and the second only adds to what it has kept.
      obtain ⟨_, p'', rest, result⟩ := idle _ stopped.limited p' rfl
      refine .inr ⟨p'', (run_bind_ok run).trans rest, ⟨?_, ?_⟩, ?_⟩
      · rw [result]
        exact stopped.limited
      · rw [result]
        exact stopped.total
      · have later : (y.run p).2.Keeps ((y >>= g').run p).2 := by
          rw [run_bind]
          rcases y.run p with ⟨_ | _, q⟩
          · exact refl_of Progress.Keeps q
          · exact hg.keeps q
        have kept : p''.Keeps p' := .of_kept (congrArg Result.kept result).symm
        exact trans_of Progress.Keeps (trans_of Progress.Keeps kept keeps) later

theorem get_bind {g g' : Progress → RunM PUnit} (hg : ∀ p, Cuts k b (g p) (g' p)) :
    Cuts k b (get >>= g) (get >>= g') where
  keeps := .bind .get fun p => (hg p).keeps
  run p hp := by
    rw [run_bind_ok run_get, run_bind_ok run_get]
    exact (hg p).run p hp

end Cuts

theorem cuts_report {e : LogEvent} : Cuts k (k + 1) (RunM.report e) (RunM.report e) := by
  refine .same (RunM.moves_report steady_keeps) fun p hp => ?_
  have unchanged : Ensures (fun q => q.Below (k + 1)) (RunM.report e) fun _ q => q.Below (k + 1) :=
    RunM.ensures_report fun _ _ _ hq => ⟨hq.unlimited, hq.total⟩
  obtain ⟨_, p', run, hp'⟩ := unchanged p hp
  rwa [run]

theorem Cuts.told {e : Progress → LogEvent} {x y : RunM PUnit} (h : Cuts k (k + 1) x y)
    (idle : Idle x) :
    Cuts k (k + 1) (get >>= fun p => RunM.report (e p) >>= fun _ => x)
      (get >>= fun p => RunM.report (e p) >>= fun _ => y) :=
  .get_bind fun _ => cuts_report.bind idle h

/-! ## A run and its limit -/

/-- The task with another limit on elements. -/
abbrev capped (config : Config) (states : List State) (clock : Clock) (limit : Option Nat) : Task :=
  ⟨{ config with maxElements := limit }, states, clock⟩

/-- Forming and keeping a candidate does not depend on the limit, and keeps at most one more
element. -/
theorem cuts_step (n : Node Handle c) :
    Cuts k k
      (RunM.inFactory (BuildM.make n) >>= RunM.keepIfNew (capped config states clock (some k)) rule)
      (RunM.inFactory (BuildM.make n) >>=
        RunM.keepIfNew (capped config states clock' none) rule) := by
  have made : Moves Progress.Keeps (RunM.inFactory (BuildM.make n)) := steady_keeps.make n
  exact .same (.bind made fun _ => RunM.moves_keepIfNew steady_keeps) fun p hp =>
    hp.keep (RunM.keepsOne_step _ _ n p)

/-- The limit is reached once there are so many elements. -/
theorem exists_reachedLimit (states : List State) (clock : Clock) (time : config.timeLimit = none)
    (unlimited : p.result.limitReached = false) (full : k ≤ p.result.total) :
    ∃ q, (RunM.reachedLimit (capped config states clock (some k))).run p = (.ok true, q) ∧
      q.result = { p.result with limitReached := true } := by
  unfold RunM.reachedLimit
  rw [run_bind_ok run_get, if_neg (by simp [unlimited]), RunM.timeIsUp_of_none time, pure_bind,
    if_neg (by simp [full])]
  exact RunM.exists_stop _ p

section Capped

variable (time : config.timeLimit = none)

include time

/-- The limit is looked at before anything is done, so what follows may keep one more element. -/
theorem Cuts.unlessReached (states : List State) (clock clock' : Clock) {x y : RunM PUnit}
    (h : Cuts k k x y) :
    Cuts k (k + 1)
      (RunM.reachedLimit (capped config states clock (some k)) >>= fun reached =>
        if reached then Pure.pure ⟨⟩ else x)
      (RunM.reachedLimit (capped config states clock' none) >>= fun reached =>
        if reached then Pure.pure ⟨⟩ else y) where
  keeps := .bind (RunM.moves_reachedLimit steady_keeps) fun _ => .ite .pure h.keeps
  run p hp := by
    have onward : (RunM.reachedLimit (capped config states clock' none)).run p = (.ok false, p) :=
      RunM.run_reachedLimit ⟨rfl, time⟩ hp.unlimited
    rw [run_bind_ok onward]
    rcases Nat.lt_or_eq_of_le (Nat.le_of_lt_succ hp.total) with fewer | full
    · have onward' :
          (RunM.reachedLimit (capped config states clock (some k))).run p = (.ok false, p) := by
        unfold RunM.reachedLimit
        rw [run_bind_ok run_get, RunM.timeIsUp_of_none time]
        simp [hp.unlimited, fewer]
      rw [run_bind_ok onward']
      exact h.run p ⟨hp.unlimited, fewer⟩
    · obtain ⟨q, run, result⟩ := exists_reachedLimit states clock time hp.unlimited
        (Nat.le_of_eq full.symm)
      refine .inr ⟨q, run_bind_ok run, ⟨?_, ?_⟩, ?_⟩
      · rw [result]
      · rw [result]
        exact full
      · have kept : q.Keeps p := .of_kept (congrArg Result.kept result).symm
        exact trans_of Progress.Keeps kept (h.keeps p)

theorem cuts_consider {ns : LazyList AnyNode} :
    Cuts k (k + 1) (RunM.consider (capped config states clock (some k)) rule ns)
      (RunM.consider (capped config states clock' none) rule ns) := by
  induction ns with
  | nil => exact .pure
  | cons n ns ih =>
    unfold RunM.consider
    refine .unlessReached time states clock clock' ?_
    rw [← bind_assoc, ← bind_assoc]
    exact (cuts_step n.2).bind RunM.idle_consider (ih ())

theorem cuts_seed {rules : List Rule} :
    Cuts k (k + 1) (RunM.seed (capped config states clock (some k)) v rules)
      (RunM.seed (capped config states clock' none) v rules) := by
  induction rules with
  | nil => exact .pure
  | cons rule rules ih =>
    unfold RunM.seed
    refine .get_bind fun p => ?_
    split
    · exact .pure
    · exact (cuts_consider time).bind RunM.idle_seed ih

theorem cuts_applyRules {n : Nat} {rules : List Rule} :
    Cuts k (k + 1) (RunM.applyRules (capped config states clock (some k)) n rules)
      (RunM.applyRules (capped config states clock' none) n rules) := by
  induction rules with
  | nil => exact .pure
  | cons rule rules ih =>
    have rest := Cuts.unlessReached time states clock clock' (ih.mono (Nat.le_succ k))
    unfold RunM.applyRules
    exact .ite (.get_bind fun p => (cuts_consider time).bind RunM.idle_unlessReached rest) rest

theorem cuts_rounds {n count : Nat} :
    Cuts k (k + 1) (RunM.rounds (capped config states clock (some k)) n count)
      (RunM.rounds (capped config states clock' none) n count) := by
  induction count generalizing n with
  | zero => exact .pure
  | succ count ih =>
    unfold RunM.rounds
    refine .unlessReached time states clock clock' (.mono ?_ (Nat.le_succ k))
    exact (cuts_applyRules time).bind RunM.idle_rounds.told (ih.told RunM.idle_rounds)

/-- A run with the limit is cut short where the run without it keeps more. -/
theorem cuts_search :
    Cuts k (k + 1) (RunM.search (capped config states clock (some k)) v)
      (RunM.search (capped config states clock' none) v) := by
  unfold RunM.search
  exact (cuts_seed time).bind RunM.idle_rounds.told ((cuts_rounds time).told RunM.idle_rounds)

end Capped

/-! ## Whole runs -/

namespace Result

variable {r full : Result}

/-- Rules without elements do not count. -/
theorem sum_filter_ne_zero (l : List (Rule × Nat)) :
    ((l.filter fun p => p.2 ≠ 0).map Prod.snd).sum = (l.map Prod.snd).sum := by
  induction l with
  | nil => rfl
  | cons p l ih =>
    by_cases none : p.2 = 0 <;> simp_all

/-- Every element was formed by one rule. -/
theorem sum_countP_rule (l : List Kept) :
    (Rule.all.map fun rule => l.countP fun e => e.rule = rule).sum = l.length := by
  induction l with
  | nil => rfl
  | cons e l ih =>
    have one : (Rule.all.map fun rule => if e.rule = rule then 1 else 0).sum = 1 := by
      cases e.rule <;> rfl
    simp only [List.countP_cons, decide_eq_true_eq, List.sum_map_add, ih, one, List.length_cons]

theorem sum_ruleCounts (r : Result) : (r.ruleCounts.map Prod.snd).sum = r.total := by
  rw [ruleCounts, sum_filter_ne_zero, List.map_map]
  exact sum_countP_rule r.kept.toList

theorem mem_ruleCounts {n : Nat} : (rule, n) ∈ r.ruleCounts ↔ n ≠ 0 ∧ n = r.count rule := by
  rw [ruleCounts, List.mem_filter, List.mem_map, decide_eq_true_iff, and_comm]
  refine and_congr_right fun _ => ⟨?_, ?_⟩
  · rintro ⟨_, -, ⟨⟩⟩
    rfl
  · rintro rfl
    exact ⟨rule, Rule.mem_all rule, rfl⟩

/-- The result lists the first `k` elements of the full result, or all of them if there are not so
many. -/
structure Truncates (r full : Result) (k : Nat) : Prop where
  /-- The number of elements. -/
  total : r.total = min k full.total
  /-- The elements, in order of discovery. -/
  kept : r.kept.toList = full.kept.toList.take (min k full.total)
  /-- The elements of each category. -/
  texts : ∀ c, r.texts c <+: full.texts c
  /-- The counts of the rules are those among the first elements. -/
  counts : ∀ (rule : Rule) (n : Nat), (rule, n) ∈ r.ruleCounts ↔
    n ≠ 0 ∧ n = (full.kept.toList.take (min k full.total)).countP fun e => e.rule = rule
  /-- The counts of the rules add up to the number of elements. -/
  sum_counts : (r.ruleCounts.map Prod.snd).sum = r.total
  /-- The limit is reached if there are more elements. -/
  reached : k < full.total → r.limitReached = true
  /-- The limit is not reached if there are fewer. -/
  not_reached : full.total < k → r.limitReached = false

/-- It is enough that the elements are the first ones. -/
theorem truncates_of_prefix (kept : r.kept.toList <+: full.kept.toList)
    (total : r.total = min k full.total) (reached : k < full.total → r.limitReached = true)
    (not_reached : full.total < k → r.limitReached = false) : r.Truncates full k := by
  have first : r.kept.toList = full.kept.toList.take (min k full.total) := by
    rw [← total]
    exact List.prefix_iff_eq_take.mp kept
  refine ⟨total, first, fun c => ?_, fun rule n => ?_, r.sum_ruleCounts, reached, not_reached⟩
  · exact (kept.filter _).map _
  · rw [mem_ruleCounts, count, first]

end Result

/-- The search of a run in states over the vocabulary, and what it found. -/
theorem exists_run_search (config : Config) (clock : Clock) (hv : v.Built)
    (hf : Factory.Reachable v f) (own : ∀ s ∈ states, s.vocabulary.id = v.id) :
    ∃ r q, (run config states f clock).result = .ok r ∧ q.result = r ∧
      (RunM.search ⟨config, states, clock⟩ v).run (.start f) = (.ok ⟨⟩, q) := by
  obtain ⟨r, hr⟩ := exists_run_eq_ok config clock hv hf own
  obtain rfl := hf.vocabulary
  have generated : (RunM.generate ⟨config, states, clock⟩).run (.start f) =
      (.ok r, ((RunM.generate ⟨config, states, clock⟩).run (.start f)).2) := Prod.ext hr rfl
  obtain ⟨q, search, result, -⟩ := RunM.exists_search generated
  exact ⟨r, q, hr, result, search⟩

/-- **A limit on elements cuts a run to a prefix.** Without a limit on time, a run that may keep `k`
elements lists the first `k` elements of the run in the same factory that may keep any number, in
their order, or all of them if there are not so many, with the counts of the rules among these. It
says that it was cut short if there are more, and not if there are fewer. -/
theorem run_truncated (config : Config) (k : Nat) (clock clock' : Clock) (hv : v.Built)
    (hf : Factory.Reachable v f) (own : ∀ s ∈ states, s.vocabulary.id = v.id)
    (time : config.timeLimit = none) :
    ∃ full r, (run { config with maxElements := none } states f clock).result = .ok full ∧
      (run { config with maxElements := some k } states f clock').result = .ok r ∧
      r.Truncates full k := by
  obtain ⟨_, q, hfull, rfl, search⟩ :=
    exists_run_search { config with maxElements := none } clock hv hf own
  obtain ⟨_, p, hr, rfl, search'⟩ :=
    exists_run_search { config with maxElements := some k } clock' hv hf own
  refine ⟨q.result, p.result, hfull, hr, ?_⟩
  have start : (Progress.start f).Below (k + 1) := ⟨rfl, Nat.succ_pos k⟩
  rcases (cuts_search time).run _ start with ⟨same, below⟩ | ⟨p', run, stopped, keeps⟩
  · obtain rfl : p = q := by
      cases (search'.symm.trans same).trans search
      rfl
    have p_below := below p search'
    have le := Nat.le_of_lt_succ p_below.total
    exact Result.truncates_of_prefix List.prefix_rfl (Nat.min_eq_right le).symm
      (fun more => absurd le (Nat.not_le.mpr more)) fun _ => p_below.unlimited
  · obtain rfl : p = p' := by
      cases search'.symm.trans run
      rfl
    rw [search] at keeps
    have le : k ≤ q.result.total := stopped.total ▸ keeps.length_le
    exact Result.truncates_of_prefix keeps (by rw [stopped.total, Nat.min_eq_left le])
      (fun _ => stopped.limited) fun fewer => absurd le (Nat.not_le.mpr fewer)

/-- A run in two states that may keep one element. Without the limit it keeps more, for the empty
and the universal concept denote different sets. -/
theorem run_truncated_one :
    let v := twoPaths.vocabulary
    let states := [onePath, twoPaths]
    ∃ full r, (run {} states (.empty v) id).result = .ok full ∧ 1 < full.total ∧
      (run { maxElements := some 1 } states (.empty v) id).result = .ok r ∧
      r.limitReached = true ∧ r.Truncates full 1 := by
  intro v states
  have own : ∀ s ∈ states, s.vocabulary.id = v.id := by
    intro s hs
    rcases List.mem_pair.mp hs with rfl | rfl <;> rfl
  obtain ⟨full, r, hfull, hr, truncates⟩ := run_truncated {} 1 id id built_twoPaths .refl own rfl
  obtain ⟨n, K, p, limits, hrun, hK, hp⟩ := exists_selects_values {} id built_twoPaths
    readable_twoPaths .refl drawn_onePath (List.Subset.refl _) (List.cons_ne_nil _ _) rfl rfl rfl
  obtain rfl : full = p.result := by
    have ends : (run {} states (.empty v) id).result = .ok p.result :=
      congrArg Outcome.result (run_eq_outcome hrun)
    cases hfull.symm.trans ends
    rfl
  let bot : Term .concept := (Term.ofNode ⟨.bot, .nil⟩).canon
  let top : Term .concept := (Term.ofNode ⟨.top, .nil⟩).canon
  have differ : bot.values states ≠ top.values states := by decide +kernel
  have more : 1 < p.result.total := by
    rw [hp.total_eq]
    exact hK.one_lt_length (limits .concept)
      (.intro ⟨.bot, .nil⟩ (by decide) rfl rfl trivial .nil (by decide))
      (.intro ⟨.top, .nil⟩ (by decide) rfl rfl trivial .nil (by decide)) differ
  exact ⟨_, r, hfull, more, hr, truncates.reached more, truncates⟩

end DescLogic.Generator
