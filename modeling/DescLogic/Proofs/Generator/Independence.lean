import DescLogic.Proofs.Generator.Completeness
import DescLogic.Proofs.Generator.Correspondence
import DescLogic.Proofs.Generator.Novelty
import DescLogic.Proofs.Generator.Success
/-!
# Runs do not depend on what the factory holds

Two factories may hold the same elements at different handles, and each may hold elements that the
other does not. The account of a run lists terms in the place of handles: those that the run has
kept, and those that it has formed. It determines how the run goes on, whatever else the factory
holds. If the factory holds all that is formed from the start, then the run stores nothing.

* `Twins`: handles of two factories that lead to the same term.
* `Tracks`: the pool lists the elements of the terms kept, level by level and in order. Pools that
  track the same terms match along `Twins`, so what the rules propose stands for the same terms.
* `Follows`: the account of a run that started in a given factory.
* `run_independent`: the results of runs in any two factories, and of a second run in one of them.
-/

namespace DescLogic

open Procedure

variable {c : Category} {v : Vocabulary} {f g : Factory} {t : Term c}

namespace Factory

/-! ## The same element in two factories -/

/-- The elements at the handles, with their operands written out, are the same. -/
def Twins (f g : Factory) (h h' : Handle c) : Prop := ∃ t, f.Spells h t ∧ g.Spells h' t

theorem distinguishes_twins (hf : f.Valid) (hg : g.Valid) :
    Generator.Distinguishes (Twins f g (c := c)) := by
  rintro x y x' y' ⟨t, hx, hx'⟩ ⟨u, hy, hy'⟩
  constructor
  · rintro rfl
    obtain rfl := hx.unique hy
    exact hg.eq_of_text_eq hx' hy' rfl
  · rintro rfl
    obtain rfl := hx'.unique hy'
    exact hf.eq_of_text_eq hx hy rfl

/-- Nodes over the same elements stand for the same term. -/
theorem Reads.of_twins {n m : Node Handle c} (h : n.Rel (Twins f g) m) (hm : g.Reads m t) :
    f.Reads n t := by
  obtain ⟨u, hu, rfl⟩ := hm
  cases h with
  | intro h =>
    cases hu with
    | intro hu =>
      refine ⟨_, .intro (h.trans hu ?_), rfl⟩
      rintro _ x y t ⟨t', hx, hy⟩ hy'
      exact hy'.unique hy ▸ hx

end Factory

namespace Generator

variable {V : Category → Type} {view : {c : Category} → Term c → V c}
  {Notes : List AnyTerm → Factory → Caches → Seen → Prop} {k : Config} {n : Nat}
  {K : List AnyTerm} {p q : Progress} {h : Handle c} {rule : Rule} {task : Task}

/-! ## Pools in order -/

/-- The terms of a category and a complexity, in order. -/
def atLevel (K : List AnyTerm) (c : Category) (n : Nat) : List (Term c) :=
  (K.filterMap (AnyTerm.as? c)).filter fun t => t.complexity = n

theorem atLevel_append_self :
    atLevel (K ++ [⟨c, t⟩]) c n =
      if t.complexity = n then atLevel K c n ++ [t] else atLevel K c n := by
  by_cases size : t.complexity = n <;> simp [atLevel, AnyTerm.as?_self, size]

theorem atLevel_append_of_ne {d : Category} (hcd : c ≠ d) :
    atLevel (K ++ [⟨c, t⟩]) d n = atLevel K d n := by
  simp [atLevel, AnyTerm.as?_of_ne hcd]

/-- The run has kept the terms of `K`, and its pool lists their elements in this order. -/
structure Tracks (v : Vocabulary) (Notes : List AnyTerm → Factory → Caches → Seen → Prop)
    (K : List AnyTerm) (p : Progress) : Prop where
  /-- The terms are those that were kept. -/
  records : Records v K p
  /-- Each level of the pool is in order. -/
  levels : ∀ c n, List.Forall₂ p.factory.Spells ((p.pool.get c).level n) (atLevel K c n)
  /-- What the run has noted of the terms is true. -/
  notes : Notes K p.factory p.caches p.seen

/-- A pool goes on in order if one more element comes last on its level. -/
theorem forall₂_level_push {pool : Pool}
    (levels : ∀ c n, List.Forall₂ f.Spells ((pool.get c).level n) (atLevel K c n))
    (spells : f.Spells h t) (d : Category) (n : Nat) :
    List.Forall₂ f.Spells (((pool.modify c (·.push t.complexity h)).get d).level n)
      (atLevel (K ++ [⟨c, t⟩]) d n) := by
  by_cases hcd : c = d
  · subst hcd
    rw [PerCategory.get_modify_self, Buckets.level_push, atLevel_append_self]
    split
    · exact List.rel_append (levels c n) (.cons spells .nil)
    · exact levels c n
  · rw [PerCategory.get_modify_of_ne hcd, atLevel_append_of_ne hcd]
    exact levels d n

theorem Tracks.grows (hj : Judges task v view Notes) (hp : Tracks v Notes K p)
    (grows : p.factory.Grows g) : Tracks v Notes K { p with factory := g } where
  records := hp.records.grows grows
  levels c n := (hp.levels c n).imp fun _ _ => grows.extends.spells
  notes := hj.grows hp.notes grows

open Classical in
/-- The terms kept after the run has looked at one more. -/
noncomputable def keptAfter (k : Config) (view : {c : Category} → Term c → V c) (K : List AnyTerm)
    (t : Term c) : List AnyTerm :=
  if Admits k view K t then K ++ [⟨c, t⟩] else K

theorem Tracks.exists_keepIfNew (hj : Judges task v view Notes) (hp : Tracks v Notes K p)
    (spells : p.factory.Spells h t) :
    ∃ p', (RunM.keepIfNew task t.rule h).run p = (.ok ⟨⟩, p') ∧ p'.factory = p.factory ∧
      Tracks v Notes (keptAfter task.config view K t) p' := by
  obtain ⟨K', p', run, factory, records, notes, outcome⟩ :=
    RunM.exists_keepIfNew hj hp.records hp.notes spells
  refine ⟨p', run, factory, ?_⟩
  unfold keptAfter
  rcases outcome with ⟨refused, rfl, pool⟩ | ⟨admitted, rfl, pool⟩
  · rw [if_neg refused]
    refine ⟨records, fun d n => ?_, notes⟩
    rw [factory, pool]
    exact hp.levels d n
  · rw [if_pos admitted]
    refine ⟨records, fun d n => ?_, notes⟩
    rw [factory, pool]
    exact forall₂_level_push hp.levels spells d n

/-- Pools that list the same terms match. -/
theorem Tracks.matches_twins (hp : Tracks v Notes K p) (hq : Tracks v Notes K q) :
    p.pool.Matches (Factory.Twins p.factory q.factory) q.pool := by
  intro c n
  have back : List.Forall₂ (fun t h => q.factory.Spells h t) (atLevel K c n)
      ((q.pool.get c).level n) := (hq.levels c n).flip
  exact forall₂_trans (hp.levels c n) back fun {_ t _} ht hu => ⟨t, ht, hu⟩

/-! ## What candidates stand for -/

/-- What a node that a rule proposes stands for. It can be formed. -/
inductive Stands (v : Vocabulary) (rule : Rule) (f : Factory) : AnyNode → AnyTerm → Prop where
  | intro {c : Category} {m : Node Handle c} {t : Term c} :
      f.Reads m t → m.args.checkNames v = .ok () → m.checkPositions = .ok () →
      t.rule = rule → Stands v rule f ⟨c, m⟩ ⟨c, t⟩

theorem Tracks.exists_stands (hp : Tracks v Notes K p) (hv : v.Valid) {y : AnyNode}
    (hy : y ∈ (rule.candidates v p.pool n).toList) : ∃ x, Stands v rule p.factory y x := by
  obtain ⟨hrule, held, -, positions, names⟩ := Rule.of_mem_candidates hv hp.records.tidy hy
  obtain ⟨c, o, hs⟩ := y
  obtain ⟨ts, rel, -, -⟩ := hp.records.exists_terms held
  refine ⟨⟨c, (Term.ofNode ⟨o, ts⟩).canon⟩, .intro ⟨_, .intro rel, rfl⟩ names positions ?_⟩
  rw [Term.rule_canon]
  exact hrule

/-- Nodes over the same elements stand for the same. -/
theorem Stands.of_twins {y y' : AnyNode} {x : AnyTerm} (hx : Stands v rule g y' x)
    (h : AnyNode.Rel (Factory.Twins f g) y y') : Stands v rule f y x := by
  cases h with
  | intro h =>
    cases hx with
    | intro reads names positions hrule =>
      refine .intro (reads.of_twins h) ?_ ?_ hrule
      · cases h with
        | intro h =>
          rw [h.checkNames_eq]
          exact names
      · cases h with
        | intro h =>
          rw [Node.checkPositions_eq h]
          exact positions

/-- What the rules propose over pools that list the same terms stands for the same, one candidate
after the other. -/
theorem exists_forall₂_stands (v : Vocabulary) (hv : v.Valid)
    (Notes : List AnyTerm → Factory → Caches → Seen → Prop) (K : List AnyTerm) (rule : Rule)
    (n : Nat) :
    ∃ xs, ∀ {p}, Tracks v Notes K p →
      List.Forall₂ (Stands v rule p.factory) (rule.candidates v p.pool n).toList xs := by
  by_cases met : ∃ q, Tracks v Notes K q
  · obtain ⟨q, hq⟩ := met
    have each : ∀ y ∈ (rule.candidates v q.pool n).toList, ∃ x, Stands v rule q.factory y x :=
      fun y hy => hq.exists_stands hv hy
    obtain ⟨xs, hxs⟩ := exists_forall₂ each
    refine ⟨xs, fun {p} hp => ?_⟩
    have same := rule.forall₂_candidates (n := n) hv
      (fun _ => Factory.distinguishes_twins hp.records.valid hq.records.valid)
      (hp.matches_twins hq)
    exact forall₂_trans same hxs fun twins hx => hx.of_twins twins
  · exact ⟨[], fun {p} hp => absurd ⟨p, hp⟩ met⟩

/-! ## Accounts of runs -/

/-- What is told of a run. -/
structure Account where
  /-- The terms kept. -/
  kept : List AnyTerm
  /-- The terms formed. -/
  formed : List AnyTerm
  /-- How often the clock was read. -/
  readings : Nat
  /-- Was a limit reached? -/
  limited : Bool

/-- The result of a run with this account. -/
def Account.result (a : Account) : Result := ⟨(a.kept.map AnyTerm.kept).toArray, a.limited⟩

/-- The terms are stored. -/
def Stores (f : Factory) (l : List AnyTerm) : Prop := ∀ x ∈ l, ∃ h, f.Spells h x.2

/-- The account is true of a run that started in the factory `f`. -/
structure Follows (v : Vocabulary) (Notes : List AnyTerm → Factory → Caches → Seen → Prop)
    (f : Factory) (a : Account) (p : Progress) : Prop where
  /-- The result tells of the terms kept. -/
  result : p.result = a.result
  /-- What was formed is stored. -/
  stores : Stores p.factory a.formed
  /-- The clock was read so often. -/
  readings : p.readings = a.readings
  /-- If all was stored before, then nothing was. -/
  idle : Stores f a.formed → p.factory = f
  /-- Until a limit is reached, the pool lists the terms kept. -/
  tracks : a.limited = false → Tracks v Notes a.kept p

variable {a : Account}

theorem Records.result_eq (hp : Records v K p) :
    p.result = ⟨(K.map AnyTerm.kept).toArray, false⟩ := by
  have kept : p.result.kept = (K.map AnyTerm.kept).toArray := by
    rw [← hp.kept]
  have unlimited := hp.unlimited
  cases hr : p.result with
  | mk kept limited => simp_all

theorem follows_start (hf : f.Valid) (notes : Notes [] f ∅ (.ofFn fun _ => ∅)) :
    Follows f.vocabulary Notes f ⟨[], [], 0, false⟩ (.start f) where
  result := rfl
  stores x hx := nomatch hx
  readings := rfl
  idle _ := rfl
  tracks _ := ⟨records_start hf, fun c n => by simp [Progress.start, atLevel], notes⟩

/-- Reports leave the account true. -/
theorem Follows.reported (hp : Follows v Notes f a p) (events : Array LogEvent) (reported : Nat) :
    Follows v Notes f a { p with events, reported } where
  result := hp.result
  stores := hp.stores
  readings := hp.readings
  idle := hp.idle
  tracks unlimited :=
    have hp := hp.tracks unlimited
    ⟨{ hp.records with }, hp.levels, hp.notes⟩

/-- A reading of the clock is counted. -/
theorem Follows.read (hp : Follows v Notes f a p) :
    Follows v Notes f { a with readings := a.readings + 1 }
      { p with readings := a.readings + 1 } where
  result := hp.result
  stores := hp.stores
  readings := rfl
  idle := hp.idle
  tracks unlimited :=
    have hp := hp.tracks unlimited
    ⟨{ hp.records with }, hp.levels, hp.notes⟩

/-- Forming and keeping a candidate enters its term. -/
theorem Follows.step (hj : Judges task v view Notes) (hv : v.Valid) (readable : v.Readable)
    {y : AnyNode} {x : AnyTerm} (hp : Follows v Notes f a p) (unlimited : a.limited = false)
    (hy : Stands v rule p.factory y x) :
    ∃ h p₁ p₂, (RunM.inFactory (BuildM.make y.2)).run p = (.ok h, p₁) ∧
      (RunM.keepIfNew task rule h).run p₁ = (.ok ⟨⟩, p₂) ∧ p.factory.Extends p₂.factory ∧
      Follows v Notes f
        ⟨keptAfter task.config view a.kept x.2, a.formed ++ [x], a.readings, false⟩ p₂ := by
  have tracks := hp.tracks unlimited
  have vocabulary := tracks.records.vocabulary
  subst vocabulary
  cases hy with
  | @intro c m t reads names positions hrule =>
    subst hrule
    obtain ⟨h, g, made, grows, spells⟩ :=
      tracks.records.valid.exists_make_reads hv readable reads names positions
    obtain ⟨p₂, kept, factory, tracks₂⟩ := (tracks.grows hj grows).exists_keepIfNew hj spells
    have ext : p.factory.Extends p₂.factory := factory ▸ grows.extends
    refine ⟨h, _, p₂, RunM.run_inFactory made, kept, ext, ?_⟩
    have one := RunM.keepsOne_keepIfNew task t.rule h { p with factory := g }
    rw [kept] at one
    constructor
    · exact tracks₂.records.result_eq
    · intro x hx
      rcases List.mem_append.mp hx with hx | hx
      · exact (hp.stores x hx).imp fun _ => ext.spells
      · cases List.mem_singleton.mp hx
        exact ⟨h, factory ▸ spells⟩
    · exact one.readings.trans hp.readings
    · intro stored
      have before := hp.idle fun x hx => stored x (List.mem_append_left _ hx)
      obtain ⟨h', known⟩ := stored ⟨c, t⟩ (by simp)
      have same := tracks.records.valid.make_eq_self made spells (before ▸ known)
      rw [factory, ← before]
      exact same
    · exact fun _ => tracks₂

theorem accounts_follows (hj : Judges task v view Notes) (hv : v.Valid) (readable : v.Readable) :
    Accounts task.config (fun _ => task.states) task.clock v (Follows v Notes) Account.result
      (Stands v) where
  result_eq hp := hp.result
  report e a := ⟨a, fun f => RunM.ensures_report fun p events reported hp =>
    hp.reported events reported⟩
  read a := ⟨a.readings, { a with readings := a.readings + 1 }, rfl, fun hp =>
    ⟨hp.readings, hp.read⟩⟩
  limit a := by
    refine ⟨{ a with limited := true }, fun f => .modify fun p hp => ?_⟩
    refine ⟨?_, hp.stores, hp.readings, hp.idle, fun unlimited => nomatch unlimited⟩
    show Result.mk p.result.kept true = _
    rw [hp.result]
    rfl
  proposes rule n a unlimited := by
    obtain ⟨xs, hxs⟩ := exists_forall₂_stands v hv Notes a.kept rule n
    exact ⟨xs, fun hp => hxs (hp.tracks unlimited)⟩
  step rule a x unlimited := by
    let after : Account :=
      ⟨keptAfter task.config view a.kept x.2, a.formed ++ [x], a.readings, false⟩
    refine ⟨after, fun {f p y} hp hy => ?_⟩
    obtain ⟨h, p₁, p₂, made, kept, ext, hp₂⟩ := hp.step hj hv readable unlimited hy
    refine ⟨h, p₁, p₂, made, kept, hp₂, fun {y' x'} hy' => ?_⟩
    cases hy' with
    | intro reads names positions hrule => exact .intro (ext.reads reads) names positions hrule

/-! ## Whole runs -/

variable {config : Config} {states l : List State} {next : Nat} {clock clock' clock'' : Clock}

/-- Runs that judge terms by a view have one result in all factories and form the same terms, and a
run in a factory that stores these terms leaves it as it is. -/
theorem Judges.exists_run_stores (hj : Judges ⟨config, states, clock⟩ v view Notes)
    (notes : ∀ f, Notes [] f ∅ (.ofFn fun _ => ∅)) (hv : v.Valid) (readable : v.Readable)
    (own : ∀ s ∈ states, s.vocabulary.id = v.id) :
    ∃ r formed, ∀ f, Factory.Reachable v f →
      (run config states f clock).result = .ok r ∧
        Stores (run config states f clock).factory formed ∧
        (Stores f formed → (run config states f clock).factory = f) := by
  obtain ⟨r, a, generated⟩ := (accounts_follows hj hv readable).generate ⟨[], [], 0, false⟩
    fun hp =>
      have vocabulary := (hp.tracks rfl).records.vocabulary
      ⟨vocabulary, EvalM.forM_checkVocabulary vocabulary own⟩
  refine ⟨r, a.formed, fun f hf => ?_⟩
  have vocabulary := hf.vocabulary
  subst vocabulary
  obtain ⟨_, p, hrun, rfl, hp⟩ := generated f _ (follows_start hf.valid (notes f))
  unfold run
  rw [hrun]
  exact ⟨rfl, hp.stores, hp.idle⟩

/-- The same of runs in states over the vocabulary, whether they compare denotations or not. -/
theorem exists_run_stores (config : Config) (clock : Clock) (hv : v.Built) (readable : v.Readable)
    (drawn : State.Drawn v l next) (hs : states ⊆ l) :
    ∃ r formed, ∀ f, Factory.Reachable v f →
      (run config states f clock).result = .ok r ∧
        Stores (run config states f clock).factory formed ∧
        (Stores f formed → (run config states f clock).factory = f) := by
  have problems : ∀ s ∈ states, s.problem.Valid v :=
    fun s hmem => (drawn.built s (hs hmem)).valid hv.valid
  have own : ∀ s ∈ states, s.vocabulary.id = v.id :=
    fun s hmem => congrArg Vocabulary.id (problems s hmem).vocabulary
  by_cases compared : Task.deduplicates ⟨config, states, clock⟩ = true
  · have distinct : Caches.Distinct (· ∈ states) :=
      fun hs₁ hs₂ same => drawn.eq_of_id_eq _ (hs hs₁) _ (hs hs₂) same
    have judges := judges_values compared problems distinct
    exact judges.exists_run_stores (fun _ => samples_start) hv.valid readable own
  · have judges := judges_self (v := v) (by simpa using compared)
    exact judges.exists_run_stores (fun _ => trivial) hv.valid readable own

/-- **Runs do not depend on what the factory holds.** Over a vocabulary whose names hold no closing
parenthesis, and in sample states over it, a run has the same result in any two reachable factories:
it lists the same elements in the same order, counts the same elements for each rule, and reaches
its limit in both or in neither. A second run in the factory that the first one leaves has this
result once more, and stores nothing. If there is a limit on time, then the clocks of the runs have
to show the same. -/
theorem run_independent (config : Config) (alike : config.TimedAlike clock clock')
    (alike' : config.TimedAlike clock clock'') (hv : v.Built) (readable : v.Readable)
    (drawn : State.Drawn v l next) (hs : states ⊆ l) (hf : Factory.Reachable v f)
    (hg : Factory.Reachable v g) :
    ∃ r, (run config states f clock).result = .ok r ∧
      (run config states g clock').result = .ok r ∧
      let again := run config states (run config states f clock).factory clock''
      again.result = .ok r ∧ again.factory = (run config states f clock).factory := by
  rw [← run_eq_of_timedAlike alike, ← run_eq_of_timedAlike alike']
  obtain ⟨r, formed, runs⟩ := exists_run_stores config clock hv readable drawn hs
  obtain ⟨first, stores, -⟩ := runs f hf
  obtain ⟨other, -, -⟩ := runs g hg
  obtain ⟨again, -, idle⟩ := runs _ (hf.tail (.generate config states clock))
  exact ⟨r, first, other, again, idle stores⟩

/-- A factory that holds an element already, which the run would have formed later. -/
theorem run_independent_top :
    let states := [twoPaths, onePath, twoPaths]
    let empty : Factory := .empty twoPaths.vocabulary
    let f := ((BuildM.make (c := .role) ⟨.topRole, .nil⟩).run empty).2
    (f.get? (⟨0⟩ : Handle .role)).isSome = true ∧
      (run {} states f id).result = (run {} states empty).result ∧
        (run {} states (run {} states f id).factory).factory = (run {} states f id).factory := by
  intro states empty f
  have repeated : states ⊆ [onePath, twoPaths] := by simp [states]
  have hf : Factory.Reachable twoPaths.vocabulary f := .single (.make ⟨.topRole, .nil⟩)
  obtain ⟨r, first, other, -, idle⟩ := run_independent {} (.inl rfl) (.inl rfl) built_twoPaths
    readable_twoPaths drawn_onePath repeated hf .refl
  refine ⟨?_, first.trans other.symm, idle⟩
  rw [Factory.get?_make_empty rfl]
  rfl

end Generator

end DescLogic
