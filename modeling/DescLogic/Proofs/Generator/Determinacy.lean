import DescLogic.Proofs.Generator.Candidates
import DescLogic.Proofs.Generator.Clock
/-!
# What a run depends on

An account `a : α` tells of the state of a run what matters to it, where `I i a p` says that it is
true of the state `p`. If an account determines whether a limit is reached, what the rules propose,
and what the account is after one candidate, then it determines the account at the end of the run,
and the result: neither depends on what else the state holds. Accounts tell how often the clock was
read, so they determine also when the time is up, whatever the clock shows. The parameter `i` may
stand for anything that accounts have to be independent of, such as the factory in which the run
started, and it may decide about the sample states.

* `Accounts`: what has to be shown of one candidate, one report, one reading of the clock and one
  limit.
* `Accounts.consider`: from one candidate to a list of them, by induction.
* `Accounts.generate`: from there to a whole run.
-/

namespace DescLogic.Generator

open Procedure

variable {ι α β : Type} {I : ι → α → Progress → Prop} {result : α → Result}
  {Stands : Rule → Factory → AnyNode → β → Prop} {config : Config} {samples : ι → List State}
  {clock : Clock} {v : Vocabulary} {rule : Rule} {n : Nat} {a : α}

/-- From states of which the account `a` is true, the steps `x i` succeed, and lead to states of
which one and the same account is true. -/
def Leads (I : ι → α → Progress → Prop) (a : α) (x : ι → RunM PUnit) : Prop :=
  ∃ a', ∀ i, Ensures (I i a) (x i) fun _ => I i a'

/-- Accounts that determine the account after one step. `Stands rule f y b` says what a node that
the rule proposes stands for in the factory `f`. -/
structure Accounts (config : Config) (samples : ι → List State) (clock : Clock) (v : Vocabulary)
    (I : ι → α → Progress → Prop) (result : α → Result)
    (Stands : Rule → Factory → AnyNode → β → Prop) : Prop where
  /-- The account tells the result so far. -/
  result_eq : ∀ {i : ι} {a : α} {p : Progress}, I i a p → p.result = result a
  /-- Reports are accounted for. -/
  report : ∀ (e : LogEvent) (a : α), Leads I a fun _ => RunM.report e
  /-- The account tells how often the clock was read, and one more reading is accounted for. -/
  read : ∀ a : α, ∃ n a', result a' = result a ∧ ∀ {i : ι} {p : Progress}, I i a p →
    p.readings = n ∧ I i a' { p with readings := n + 1 }
  /-- Reaching a limit is accounted for. -/
  limit : ∀ a, Leads I a fun _ =>
    modify fun p => { p with result := { p.result with limitReached := true } }
  /-- The account tells what the rules propose. -/
  proposes : ∀ (rule : Rule) (n : Nat) (a : α), (result a).limitReached = false →
    ∃ bs : List β, ∀ {i : ι} {p : Progress}, I i a p →
      List.Forall₂ (Stands rule p.factory) (rule.candidates v p.pool n).toList bs
  /-- Forming and keeping a candidate is accounted for, and the other candidates stay what they
  are. -/
  step : ∀ (rule : Rule) (a : α) (b : β), (result a).limitReached = false →
    ∃ a', ∀ {i : ι} {p : Progress} {y : AnyNode}, I i a p → Stands rule p.factory y b →
      ∃ h p₁ p₂, (RunM.inFactory (BuildM.make y.2)).run p = (.ok h, p₁) ∧
        (RunM.keepIfNew ⟨config, samples i, clock⟩ rule h).run p₁ = (.ok ⟨⟩, p₂) ∧ I i a' p₂ ∧
        ∀ {y' : AnyNode} {b' : β},
          Stands rule p.factory y' b' → Stands rule p₂.factory y' b'

/-! ## Steps in turn -/

theorem Leads.pure : Leads I a fun _ => pure ⟨⟩ := ⟨a, fun _ => .pure fun _ h => h⟩

theorem Leads.bind {x : ι → RunM PUnit} {y : ι → PUnit → RunM PUnit} (hx : Leads I a x)
    (hy : ∀ a, Leads I a fun i => y i ⟨⟩) : Leads I a fun i => x i >>= y i := by
  obtain ⟨a₁, hx⟩ := hx
  obtain ⟨a₂, hy⟩ := hy a₁
  exact ⟨a₂, fun i => (hx i).bind fun _ => hy i⟩

theorem Leads.ite {q : Prop} [Decidable q] {x y : ι → RunM PUnit} (hx : q → Leads I a x)
    (hy : ¬ q → Leads I a y) : Leads I a fun i => if q then x i else y i := by
  by_cases hq : q
  · simpa only [if_pos hq] using hx hq
  · simpa only [if_neg hq] using hy hq

theorem Leads.forM {γ : Type} {l : List γ} {g : γ → RunM PUnit}
    (hg : ∀ c a, Leads I a fun _ => g c) : Leads I a fun _ => l.forM g := by
  induction l generalizing a with
  | nil => exact .pure
  | cons c l ih => exact .bind (hg c a) fun a => ih

/-- The whole state of a run is an account, if `x` succeeds where `J` holds and `J` holds
afterwards. -/
theorem leads_of_ensures {J : Progress → Prop} {x : RunM PUnit} (hx : Ensures J x fun _ => J)
    (p : Progress) : Leads (fun (_ : Unit) p q => q = p ∧ J q) p fun _ => x := by
  by_cases hp : J p
  · obtain ⟨_, p', run, hp'⟩ := hx p hp
    refine ⟨p', fun _ q hq => ?_⟩
    obtain ⟨rfl, -⟩ := hq
    exact ⟨⟨⟩, p', run, rfl, hp'⟩
  · refine ⟨p, fun _ q hq => ?_⟩
    obtain ⟨rfl, hq⟩ := hq
    exact absurd hq hp

namespace Accounts

variable (acc : Accounts config samples clock v I result Stands)

include acc

/-- What follows may use the result so far. -/
theorem get_bind {g : ι → Result → RunM PUnit} (hg : Leads I a fun i => g i (result a)) :
    Leads I a fun i => get >>= fun p => g i p.result := by
  obtain ⟨a', hg⟩ := hg
  refine ⟨a', fun i => Ensures.get_bind fun p hp => ?_⟩
  rw [acc.result_eq hp]
  rintro q rfl
  exact hg i q hp

/-- The time is up in all states with the account, or in none of them. -/
theorem timeIsUp (a : α) :
    ∃ up a', result a' = result a ∧ ∀ i p, I i a p →
      ∃ p', (RunM.timeIsUp ⟨config, samples i, clock⟩).run p = (.ok up, p') ∧
        p'.factory = p.factory ∧ I i a' p' := by
  cases time : config.timeLimit with
  | none =>
    refine ⟨false, a, rfl, fun i p hp => ⟨p, ?_, rfl, hp⟩⟩
    rw [RunM.timeIsUp_of_none time]
    rfl
  | some limit =>
    obtain ⟨n, a', same, read⟩ := acc.read a
    refine ⟨decide (limit ≤ clock n), a', same, fun i p hp => ?_⟩
    obtain ⟨rfl, hp'⟩ := read hp
    exact ⟨_, RunM.run_timeIsUp time, rfl, hp'⟩

/-- A limit is reached in all states with the account, or in none of them. -/
theorem reachedLimit (a : α) :
    (∃ a', ∀ i, Ensures (I i a) (RunM.reachedLimit ⟨config, samples i, clock⟩)
        fun reached p => reached = true ∧ I i a' p) ∨
      ∃ a', (result a').limitReached = false ∧ ∀ i p, I i a p →
        ∃ p', (RunM.reachedLimit ⟨config, samples i, clock⟩).run p = (.ok false, p') ∧
          p'.factory = p.factory ∧ I i a' p' := by
  unfold RunM.reachedLimit
  by_cases reached : (result a).limitReached = true
  · refine .inl ⟨a, fun i p hp => ⟨true, p, ?_, rfl, hp⟩⟩
    rw [run_bind_ok run_get, acc.result_eq hp, if_pos reached]
    rfl
  obtain ⟨time, a₁, same, looked⟩ := acc.timeIsUp a
  let elements := config.maxElements.any (· ≤ (result a).total)
  by_cases met : (!elements && !time) = true
  · refine .inr ⟨a₁, by simpa [same] using reached, fun i p hp => ?_⟩
    obtain ⟨p₁, look, factory, hp₁⟩ := looked i p hp
    refine ⟨p₁, ?_, factory, hp₁⟩
    rw [run_bind_ok run_get, acc.result_eq hp, if_neg reached, run_bind_ok look, if_pos met]
    rfl
  · let total := (result a).total
    let which := if elements then "element" else "time"
    obtain ⟨a₂, hreport⟩ := acc.report (.atThreshold .warning 1
      s!"generation stopped after {total} elements: {which} limit reached") a₁
    obtain ⟨a₃, hlimit⟩ := acc.limit a₂
    refine .inl ⟨a₃, fun i => Ensures.get_bind fun p hp => ?_⟩
    rw [acc.result_eq hp, if_neg reached]
    rintro q rfl
    obtain ⟨p₁, look, -, hp₁⟩ := looked i q hp
    rw [run_bind_ok look, if_neg met]
    exact ((hreport i).bind fun _ => (hlimit i).bind fun _ => .pure fun _ hq => ⟨rfl, hq⟩) p₁ hp₁

/-- What follows a look at the limits is carried out in all states with the account, or in none. -/
theorem unlessReached {x : ι → RunM PUnit}
    (hx : ∀ a, (result a).limitReached = false → Leads I a x) (a : α) :
    Leads I a fun i => RunM.reachedLimit ⟨config, samples i, clock⟩ >>= fun reached =>
      if reached then pure ⟨⟩ else x i := by
  rcases acc.reachedLimit a with ⟨a', reached⟩ | ⟨a₁, unlimited, not⟩
  · refine ⟨a', fun i => (reached i).bind fun _ p hp => ?_⟩
    obtain ⟨rfl, hp⟩ := hp
    exact ⟨⟨⟩, p, rfl, hp⟩
  · obtain ⟨a', hx⟩ := hx a₁ unlimited
    refine ⟨a', fun i p hp => ?_⟩
    obtain ⟨p₁, look, -, hp₁⟩ := not i p hp
    rw [run_bind_ok look]
    exact hx i p₁ hp₁

/-- One candidate after the other. -/
theorem consider (rule : Rule) (bs : List β) (a : α) :
    ∃ a', ∀ i, ∀ {ns : LazyList AnyNode}, Ensures
      (fun p => I i a p ∧ List.Forall₂ (Stands rule p.factory) ns.toList bs)
      (RunM.consider ⟨config, samples i, clock⟩ rule ns) fun _ => I i a' := by
  induction bs generalizing a with
  | nil =>
    refine ⟨a, fun i ns p hp => ?_⟩
    obtain ⟨hp, stand⟩ := hp
    cases ns with
    | nil => exact ⟨⟨⟩, p, rfl, hp⟩
    | cons => cases stand
  | cons b bs ih =>
    rcases acc.reachedLimit a with ⟨a', reached⟩ | ⟨a₀, unlimited, not⟩
    · refine ⟨a', fun i ns p hp => ?_⟩
      obtain ⟨hp, stand⟩ := hp
      cases ns with
      | nil => cases stand
      | cons y ns =>
        obtain ⟨_, p', run, rfl, hp'⟩ := reached i p hp
        refine ⟨⟨⟩, p', ?_, hp'⟩
        unfold RunM.consider
        rw [run_bind_ok run]
        rfl
    · obtain ⟨a₁, step⟩ := acc.step rule a₀ b unlimited
      obtain ⟨a₂, rest⟩ := ih a₁
      refine ⟨a₂, fun i ns p hp => ?_⟩
      obtain ⟨hp, stand⟩ := hp
      cases ns with
      | nil => cases stand
      | cons y ns =>
        obtain ⟨p₀, look, factory, hp₀⟩ := not i p hp
        rw [← factory] at stand
        obtain ⟨first, others⟩ := List.forall₂_cons.mp stand
        obtain ⟨h, p₁, p₂, made, kept, hp₂, stay⟩ := step hp₀ first
        obtain ⟨_, p₃, run, hp₃⟩ := rest i p₂ ⟨hp₂, others.imp fun _ _ => stay⟩
        refine ⟨⟨⟩, p₃, ?_, hp₃⟩
        unfold RunM.consider
        rw [run_bind_ok look]
        exact (run_bind_ok made).trans ((run_bind_ok kept).trans run)

/-- What a rule proposes is considered. -/
theorem considerCandidates (rule : Rule) (n : Nat) (unlimited : (result a).limitReached = false) :
    Leads I a fun i => get >>= fun p =>
      RunM.consider ⟨config, samples i, clock⟩ rule (rule.candidates v p.pool n) := by
  obtain ⟨bs, proposes⟩ := acc.proposes rule n a unlimited
  obtain ⟨a', considered⟩ := acc.consider rule bs a
  refine ⟨a', fun i => Ensures.get_bind fun p hp => ?_⟩
  rintro q rfl
  exact considered i q ⟨hp, proposes hp⟩

theorem seed (rules : List Rule) (a : α) :
    Leads I a fun i => RunM.seed ⟨config, samples i, clock⟩ v rules := by
  induction rules generalizing a with
  | nil => exact .pure
  | cons rule rules ih =>
    unfold RunM.seed
    refine acc.get_bind (g := fun i r => if r.limitReached then pure ⟨⟩ else _) ?_
    refine .ite (fun _ => .pure) fun reached => ?_
    exact .bind (acc.considerCandidates rule 0 (by simpa using reached)) ih

theorem applyRules (rules : List Rule) (n : Nat) (unlimited : (result a).limitReached = false) :
    Leads I a fun i => RunM.applyRules ⟨config, samples i, clock⟩ (n + 1) rules := by
  induction rules generalizing a with
  | nil => exact .pure
  | cons rule rules ih =>
    have next := acc.unlessReached fun a => ih (a := a)
    unfold RunM.applyRules
    refine .ite (q := n + 2 ≤ config.limit rule.category) (fun _ => ?_) fun _ => next a
    exact .bind (acc.considerCandidates rule (n + 1) unlimited) next

theorem rounds (n count : Nat) (a : α) :
    Leads I a fun i => RunM.rounds ⟨config, samples i, clock⟩ (n + 1) count := by
  induction count generalizing n a with
  | zero => exact .pure
  | succ count ih =>
    let next (i : ι) (r : Result) : RunM PUnit := do
      RunM.report (.atThreshold .info 1 s!"complexity {n + 1 + 1}: {r}")
      RunM.rounds ⟨config, samples i, clock⟩ (n + 1 + 1) count
    unfold RunM.rounds
    refine acc.unlessReached (fun a unlimited => ?_) a
    refine .bind (acc.applyRules config.rules n unlimited) fun a => ?_
    exact acc.get_bind (g := next) (.bind (acc.report _ a) (ih (n + 1)))

/-- **The account at the start determines the result of a run**, and the account at its end. -/
theorem generate (a : α)
    (start : ∀ {i : ι} {p : Progress}, I i a p → p.factory.vocabulary = v ∧
      (samples i).forM (EvalM.checkVocabulary p.factory) = .ok ⟨⟩) :
    ∃ r a', ∀ i, Ensures (I i a) (RunM.generate ⟨config, samples i, clock⟩)
      fun r' p => r' = r ∧ I i a' p := by
  obtain ⟨a₁, seeded⟩ := acc.seed config.rules a
  obtain ⟨a₂, told⟩ := acc.report (.atThreshold .info 1 s!"seeded {result a₁}") a₁
  obtain ⟨a₃, rounds⟩ := acc.rounds 0 (config.maxLimit - 1) a₂
  obtain ⟨a₄, counted⟩ := Leads.forM (a := a₃) (l := (result a₃).ruleCounts)
    (g := fun x => RunM.report (.atThreshold .info 2 s!"{x.1}: {x.2}")) fun _ => acc.report _
  refine ⟨result a₃, a₄, fun i p hp => ?_⟩
  obtain ⟨vocabulary, checked⟩ := start hp
  unfold RunM.generate
  rw [run_bind_ok run_get, run_lift_bind_ok checked, run_bind_ok run_get, vocabulary]
  obtain ⟨_, p₁, run₁, hp₁⟩ := seeded i p hp
  rw [run_bind_ok run₁, run_bind_ok run_get, acc.result_eq hp₁]
  obtain ⟨_, p₂, run₂, hp₂⟩ := told i p₁ hp₁
  rw [run_bind_ok run₂]
  obtain ⟨_, p₃, run₃, hp₃⟩ := rounds i p₂ hp₂
  rw [run_bind_ok run₃, run_bind_ok run_get, acc.result_eq hp₃]
  obtain ⟨_, p₄, run₄, hp₄⟩ := counted i p₃ hp₃
  exact ⟨_, p₄, run_bind_ok run₄, rfl, hp₄⟩

end Accounts

end DescLogic.Generator
