import DescLogic.Proofs.Generator.Clock
import DescLogic.Proofs.Generator.Ledger
/-!
# What a run selects

A run keeps a term unless it has kept one before that looks the same. What terms look like is given
by a view: to a run that compares no denotations every term looks like itself alone, and to one
that does they look like their denotations in the sample states.

`Selects k v view n S K` says that the list `K` holds terms that look different from each other,
each formed of others in the list, and that it covers the terms `S`: where one of complexity up to
`n` is formed of terms in the list, a term of the list looks the same and is not more complex.

* `Judges`: the run tells new terms from others by the view, and what it notes for that stays true.
* `Selects.append`, `Selects.cover`: a term that looks like none before enters the list, and any
  other is covered by it.
* `Admits`, `RunM.exists_keepIfNew`: what looking at one element does to the list and to the pool.
* `RunM.ensures_keepIfNew`, `RunM.ensures_consider`: the steps of a run cover what candidates stand
  for.
-/

namespace DescLogic.Generator

open Procedure

variable {V : Category → Type} {view : {c : Category} → Term c → V c} {c : Category}
  {v : Vocabulary} {k : Config} {n : Nat} {K K' B : List AnyTerm} {S : Set AnyTerm}
  {p : Progress} {f g : Factory} {h : Handle c} {t u : Term c} {rule : Rule}

/-! ## Covering -/

/-- The list holds terms that look different, each formed of others, and covers the terms `S` up to
complexity `n`. -/
structure Selects (k : Config) (v : Vocabulary) (view : {c : Category} → Term c → V c) (n : Nat)
    (S : Set AnyTerm) (K : List AnyTerm) : Prop where
  /-- Members of the family once each, in order. -/
  ledger : Ledger k v n K
  /-- Terms that look the same are the same. -/
  apart : ∀ {c : Category} {t u : Term c}, ⟨c, t⟩ ∈ K → ⟨c, u⟩ ∈ K → view t = view u → t = u
  /-- The terms are formed of others in the list. -/
  formed : ∀ {c : Category} {t : Term c}, ⟨c, t⟩ ∈ K → Forms k v (fun u => ⟨_, u⟩ ∈ K) t
  /-- A term in `S` that is formed of the list looks like one that is not more complex. -/
  covered : ∀ {c : Category} {t : Term c}, ⟨c, t⟩ ∈ S → t.complexity ≤ n →
    Forms k v (fun u => ⟨_, u⟩ ∈ K) t →
      ∃ u, ⟨c, u⟩ ∈ K ∧ view u = view t ∧ u.complexity ≤ t.complexity

theorem selects_nil : Selects k v view 1 ∅ [] := by
  constructor
  · exact ledger_nil
  · simp
  · simp
  · rintro c t ⟨⟩

/-- The terms of complexity up to `n`. -/
def upTo (n : Nat) : Set AnyTerm := {x | x.2.complexity ≤ n}

/-- What the rules and the limits leave out need not be covered. -/
theorem Selects.of_subset {S' : Set AnyTerm} (hK : Selects k v view n S K)
    (h : ∀ x ∈ S', x.2.rule ∈ k.rules → x.2.complexity ≤ k.limit x.1 → x ∈ S) :
    Selects k v view n S' K :=
  { hK with
    covered := fun ht bound hform =>
      hK.covered (h _ ht hform.rule_mem hform.complexity_le) bound hform }

/-- Terms that may be formed and look different are not covered by one term. -/
theorem Selects.one_lt_length {u : Term c} (hK : Selects k v view n (upTo n) K)
    (limit : k.limit c ≤ n) (ht : Forms k v (fun u => ⟨_, u⟩ ∈ K) t)
    (hu : Forms k v (fun u => ⟨_, u⟩ ∈ K) u) (differ : view t ≠ view u) : 1 < K.length := by
  have bound {w : Term c} (hw : Forms k v (fun u => ⟨_, u⟩ ∈ K) w) : w.complexity ≤ n :=
    Nat.le_trans hw.complexity_le limit
  obtain ⟨x, hx, same, -⟩ := hK.covered (bound ht) (bound ht) ht
  obtain ⟨y, hy, same', -⟩ := hK.covered (bound hu) (bound hu) hu
  rcases K with _ | ⟨a, _ | ⟨b, K⟩⟩
  · cases hx
  · cases (List.mem_singleton.mp hx).trans (List.mem_singleton.mp hy).symm
    exact absurd (same.symm.trans same') differ
  · simp

/-- The bound may grow if the terms to be covered are within the old one. -/
theorem Selects.mono (hK : Selects k v view n S K) {m : Nat} (hnm : n ≤ m)
    (hS : ∀ x ∈ S, x.2.complexity ≤ n) : Selects k v view m S K :=
  { hK with
    ledger := hK.ledger.mono hnm
    covered := fun ht _ hform => hK.covered ht (hS _ ht) hform }

/-- A term that is covered if it is formed of the list may join the terms to be covered. -/
theorem Selects.cover (hK : Selects k v view n S K)
    (ht : Forms k v (fun u => ⟨_, u⟩ ∈ K) t →
      ∃ u, ⟨c, u⟩ ∈ K ∧ view u = view t ∧ u.complexity ≤ t.complexity) :
    Selects k v view n (insert ⟨c, t⟩ S) K :=
  { hK with
    covered := by
      rintro d u (hu | hu) bound hform
      · cases hu
        exact ht hform
      · exact hK.covered hu bound hform }

/-- A term that looks like none in the list may enter it. -/
theorem Selects.append (hK : Selects k v view n S K)
    (new : ∀ u, ⟨c, u⟩ ∈ K → view u ≠ view t) (hform : Forms k v (fun u => ⟨_, u⟩ ∈ K) t)
    (complexity : t.complexity = n) : Selects k v view n (insert ⟨c, t⟩ S) (K ++ [⟨c, t⟩]) := by
  have mem_iff {d : Category} {u : Term d} :
      ⟨d, u⟩ ∈ K ++ [(⟨c, t⟩ : AnyTerm)] ↔ ⟨d, u⟩ ∈ K ∨ (⟨d, u⟩ : AnyTerm) = ⟨c, t⟩ := by
    simp
  have keeps {d : Category} {u : Term d} (hu : ⟨d, u⟩ ∈ K) : ⟨d, u⟩ ∈ K ++ [⟨c, t⟩] :=
    mem_iff.mpr (.inl hu)
  -- The new term is too complex to be an operand of one that is to be covered.
  have old {d : Category} {u : Term d} (bound : u.complexity ≤ n)
      (hu : Forms k v (fun u => ⟨_, u⟩ ∈ K ++ [(⟨c, t⟩ : AnyTerm)]) u) :
      Forms k v (fun u => ⟨_, u⟩ ∈ K) u := by
    refine hu.imp fun {e w} hw less => (mem_iff.mp hw).resolve_right ?_
    rintro ⟨⟩
    omega
  constructor
  · refine hK.ledger.append (fun ht => new t ht rfl) ?_ complexity
    exact (hform.imp fun hu _ => hK.ledger.member hu).family
  · intro d u w hu hw same
    rcases mem_iff.mp hu with hu | hu <;> rcases mem_iff.mp hw with hw | hw
    · exact hK.apart hu hw same
    · cases hw
      exact absurd same (new u hu)
    · cases hu
      exact absurd same.symm (new w hw)
    · cases hu
      cases hw
      rfl
  · intro d u hu
    rcases mem_iff.mp hu with hu | hu
    · exact (hK.formed hu).imp fun hw _ => keeps hw
    · cases hu
      exact hform.imp fun hw _ => keeps hw
  · rintro d u (hu | hu) bound hform'
    · exact ⟨u, mem_iff.mpr (.inr hu), rfl, Nat.le_refl _⟩
    · obtain ⟨w, hw, same, le⟩ := hK.covered hu bound (old bound hform')
      exact ⟨w, keeps hw, same, le⟩

/-- What enters a list later is more complex than the terms that were covered before. -/
theorem Selects.mem_of_later {S' : Set AnyTerm} {n' m : Nat} (hK : Selects k v view n S K)
    (hK' : Selects k v view n' S' K') (sub : K ⊆ K') (hS : upTo m ⊆ S) (hm : m ≤ n)
    (ht : ⟨c, t⟩ ∈ K') (bound : t.complexity ≤ m) : ⟨c, t⟩ ∈ K := by
  generalize size : t.complexity = i
  induction i using Nat.strongRecOn generalizing c t with
  | _ i ih =>
    have hform : Forms k v (fun u => ⟨_, u⟩ ∈ K) t :=
      (hK'.formed ht).imp fun {_ u} hu less => ih _ (by omega) hu (by omega) rfl
    obtain ⟨u, hu, same, -⟩ := hK.covered (hS bound) (by omega) hform
    exact hK'.apart (sub hu) ht same ▸ hu

/-! ## Judging terms -/

/-- Nothing cuts the run short. -/
structure Task.Endless (t : Task) : Prop where
  /-- There is no limit on the number of elements. -/
  maxElements : t.config.maxElements = none
  /-- There is no limit on the time. -/
  timeLimit : t.config.timeLimit = none

/-- Is an element that was not kept before and is not too complex to be kept? -/
def RunM.isNew (task : Task) (h : Handle c) : RunM Bool :=
  if task.deduplicates then isNovel task h else return true

/-- The denotations of the elements kept. -/
abbrev Seen := PerCategory fun c => Std.HashSet (List (Meaning c))

/-- The run keeps an element if no term that it has kept looks like the element's. `Notes` is what
is true of its caches and of the denotations that it has seen. -/
structure Judges (task : Task) (v : Vocabulary) (view : {c : Category} → Term c → V c)
    (Notes : List AnyTerm → Factory → Caches → Seen → Prop) : Prop where
  /-- Notes stay true when the factory grows. -/
  grows : ∀ {K : List AnyTerm} {f g : Factory} {caches : Caches} {seen : Seen},
    Notes K f caches seen → f.Grows g → Notes K g caches seen
  /-- Elements that were not kept before are told from others by the view. -/
  admits : ∀ {K : List AnyTerm} {p : Progress} {c : Category} {h : Handle c} {t : Term c},
    Records v K p → Notes K p.factory p.caches p.seen → p.factory.Spells h t → ⟨c, t⟩ ∉ K →
      ∃ new caches seen, (RunM.isNew task h).run p = (.ok new, { p with caches, seen }) ∧
        if new then (∀ u, ⟨c, u⟩ ∈ K → view u ≠ view t) ∧
          Notes (K ++ [⟨c, t⟩]) p.factory caches seen
        else (∃ u, ⟨c, u⟩ ∈ K ∧ view u = view t) ∧ Notes K p.factory caches seen

/-- The term is within the limit, and no term in the list looks like it. -/
def Admits (k : Config) (view : {c : Category} → Term c → V c) (K : List AnyTerm) (t : Term c) :
    Prop :=
  t.complexity ≤ k.limit c ∧ ∀ u, ⟨c, u⟩ ∈ K → view u ≠ view t

/-- A term within the limit that is not admitted looks like one in the list. -/
theorem exists_of_not_admits (refused : ¬ Admits k view K t) (bound : t.complexity ≤ k.limit c) :
    ∃ u, ⟨c, u⟩ ∈ K ∧ view u = view t := by
  by_contra other
  exact refused ⟨bound, fun u hu same => other ⟨u, hu, same⟩⟩

variable {Notes : List AnyTerm → Factory → Caches → Seen → Prop}

/-- The run has kept a list, `B` among it, that covers the terms `S` up to complexity `n`. -/
def Selected (k : Config) (v : Vocabulary) (view : {c : Category} → Term c → V c)
    (Notes : List AnyTerm → Factory → Caches → Seen → Prop) (B : List AnyTerm) (n : Nat)
    (S : Set AnyTerm) (p : Progress) : Prop :=
  ∃ K, B ⊆ K ∧ Selects k v view n S K ∧ Records v K p ∧ Notes K p.factory p.caches p.seen

theorem Selected.of_subset {S' : Set AnyTerm} (hp : Selected k v view Notes B n S p)
    (h : ∀ x ∈ S', x.2.rule ∈ k.rules → x.2.complexity ≤ k.limit x.1 → x ∈ S) :
    Selected k v view Notes B n S' p := by
  obtain ⟨K, hB, hK, hp⟩ := hp
  exact ⟨K, hB, hK.of_subset h, hp⟩

theorem Selected.mono (hp : Selected k v view Notes B n S p) {m : Nat} (hnm : n ≤ m)
    (hS : ∀ x ∈ S, x.2.complexity ≤ n) : Selected k v view Notes B m S p := by
  obtain ⟨K, hB, hK, hp⟩ := hp
  exact ⟨K, hB, hK.mono hnm hS, hp⟩

theorem Selected.unlimited (hp : Selected k v view Notes B n S p) :
    p.result.limitReached = false := by
  obtain ⟨K, -, -, hp, -⟩ := hp
  exact hp.unlimited

/-- Reports leave alone what was selected. -/
theorem Selected.reported (hp : Selected k v view Notes B n S p) (events : Array LogEvent)
    (reported : Nat) : Selected k v view Notes B n S { p with events, reported } := by
  obtain ⟨K, hB, hK, hp, notes⟩ := hp
  exact ⟨K, hB, hK, { hp with }, notes⟩

/-- What a candidate of complexity `n` stands for: a node over stored elements stands for a term
that is formed of the list if it is within the limit. -/
inductive Proposes (k : Config) (v : Vocabulary) (K : List AnyTerm) (f : Factory) (n : Nat)
    (rule : Rule) : AnyNode → AnyTerm → Prop where
  | intro {c : Category} {m : Node Handle c} {t : Term c} :
      f.Reads m t → m.args.checkNames v = .ok () → m.checkPositions = .ok () → t.rule = rule →
      t.complexity = n → (n ≤ k.limit c → Forms k v (fun u => ⟨_, u⟩ ∈ K) t) →
      Proposes k v K f n rule ⟨c, m⟩ ⟨c, t⟩

theorem Proposes.unique {x x' : AnyTerm} {y : AnyNode} (h : Proposes k v K f n rule y x)
    (h' : Proposes k v K f n rule y x') : x = x' := by
  cases h with
  | intro reads =>
    cases h' with
    | intro reads' => rw [reads.unique reads']

/-! ## Steps of a run -/

namespace RunM

variable {task : Task}

theorem run_reachedLimit (ht : task.Endless) (hp : p.result.limitReached = false) :
    (reachedLimit task).run p = (.ok false, p) := by
  unfold reachedLimit
  rw [run_bind_ok run_get, timeIsUp_of_none ht.timeLimit]
  simp [hp, ht.maxElements]

/-- A step on the factory leaves the rest of the state alone. -/
theorem run_inFactory {γ : Type} {x : BuildM γ} {r : Except Error γ}
    (h : x.run p.factory = (r, g)) : (inFactory x).run p = (r, { p with factory := g }) := by
  show ((x.run p.factory).1, { p with factory := (x.run p.factory).2 }) = _
  rw [h]

/-- What follows a look at the limits is carried out. -/
theorem ensures_unlessReached (ht : task.Endless) {P : Progress → Prop}
    (hP : ∀ p, P p → p.result.limitReached = false) {x : RunM PUnit} {Q : PUnit → Progress → Prop}
    (hx : Ensures P x Q) :
    Ensures P (reachedLimit task >>= fun reached => if reached then pure ⟨⟩ else x) Q := by
  intro p hp
  rw [run_bind_ok (run_reachedLimit ht (hP p hp))]
  exact hx p hp

/-- A report changes the events and nothing else. -/
theorem ensures_report {e : LogEvent} {P : Progress → Prop}
    (hP : ∀ p events reported, P p → P { p with events, reported }) :
    Ensures P (report e) fun _ => P := by
  unfold report reportInsertions
  apply Ensures.bind (Q := fun _ => P)
  · exact Ensures.modify fun p hp => hP p _ _ hp
  · exact fun _ => Ensures.modify fun p hp => hP p _ p.reported hp

/-- An element is kept if it was not kept before, is not too complex, and is admitted. -/
theorem run_keepIfNew {e : Entry c} (he : p.factory.get? h = some e) :
    (keepIfNew task rule h).run p =
      if h ∈ p.placed.get c ∨ task.config.limit c < e.summary.complexity then (.ok (), p)
      else (isNew task h >>= fun new => if new then place rule h e.summary else pure ⟨⟩).run p := by
  have entry : p.factory.entry h = .ok e := by
    rw [Factory.entry, he]
  unfold keepIfNew
  rw [run_bind_ok run_get]
  by_cases placed : h ∈ p.placed.get c
  · rw [if_pos (Std.HashSet.contains_iff_mem.mpr placed), if_pos (.inl placed)]
    rfl
  · rw [if_neg (mt Std.HashSet.contains_iff_mem.mp placed), entry, run_bind_ok run_lift]
    by_cases complex : task.config.limit c < e.summary.complexity
    · rw [if_pos complex, if_pos (.inr complex)]
      rfl
    · rw [if_neg complex, if_neg (not_or.mpr ⟨placed, complex⟩)]
      unfold isNew
      cases task.deduplicates <;> rfl

/-- Looking at an element keeps it if its term is admitted, and changes nothing else of what the run
has kept. -/
theorem exists_keepIfNew (hj : Judges task v view Notes) (hp : Records v K p)
    (notes : Notes K p.factory p.caches p.seen) (spells : p.factory.Spells h t) :
    ∃ K' p', (keepIfNew task t.rule h).run p = (.ok ⟨⟩, p') ∧ p'.factory = p.factory ∧
      Records v K' p' ∧ Notes K' p'.factory p'.caches p'.seen ∧
        (¬ Admits task.config view K t ∧ K' = K ∧ p'.pool = p.pool ∨
          Admits task.config view K t ∧ K' = K ++ [⟨c, t⟩] ∧
            p'.pool = p.pool.modify c (·.push t.complexity h)) := by
  obtain ⟨e, he⟩ := spells.stored
  have summary := hp.valid.summary_eq he spells
  have size : e.summary.complexity = t.complexity := congrArg Summary.complexity summary
  have placed_iff : h ∈ p.placed.get c ↔ ⟨c, t⟩ ∈ K := by
    rw [hp.mem_placed]
    constructor
    · rintro ⟨u, hu, spells'⟩
      exact spells.unique spells' ▸ hu
    · intro hu
      exact ⟨t, hu, spells⟩
  rw [run_keepIfNew he, size]
  by_cases placed : ⟨c, t⟩ ∈ K
  · rw [if_pos (.inl (placed_iff.mpr placed))]
    exact ⟨K, p, rfl, rfl, hp, notes, .inl ⟨fun admits => admits.2 t placed rfl, rfl, rfl⟩⟩
  by_cases complex : task.config.limit c < t.complexity
  · rw [if_pos (.inr complex)]
    refine ⟨K, p, rfl, rfl, hp, notes, .inl ⟨fun admits => ?_, rfl, rfl⟩⟩
    exact absurd admits.1 (Nat.not_le_of_lt complex)
  obtain ⟨new, caches, seen, run, outcome⟩ := hj.admits hp notes spells placed
  rw [if_neg (not_or.mpr ⟨mt placed_iff.mp placed, complex⟩), run_bind_ok run]
  have hp' : Records v K { p with caches, seen } := { hp with }
  cases new with
  | true =>
    obtain ⟨new, notes'⟩ := outcome
    refine ⟨_, _, rfl, rfl, hp'.place spells placed summary rfl, notes', .inr ⟨?_, rfl, ?_⟩⟩
    · exact ⟨Nat.le_of_not_lt complex, new⟩
    · rw [← size]
  | false =>
    obtain ⟨⟨u, hu, same⟩, notes'⟩ := outcome
    exact ⟨K, _, rfl, rfl, hp', notes', .inl ⟨fun admits => admits.2 u hu same, rfl, rfl⟩⟩

/-- A term that is formed of the list is covered once its element was looked at. -/
theorem ensures_keepIfNew (hj : Judges task v view Notes) (complexity : t.complexity = n)
    (hform : n ≤ task.config.limit c → Forms task.config v (fun u => ⟨_, u⟩ ∈ B) t) :
    Ensures (fun p => Selected task.config v view Notes B n S p ∧ f.Extends p.factory ∧
        p.factory.Spells h t)
      (keepIfNew task t.rule h)
      fun _ p => Selected task.config v view Notes B n (insert ⟨c, t⟩ S) p ∧
        f.Extends p.factory := by
  rintro p ⟨⟨K, hB, hK, hp, notes⟩, ext, spells⟩
  obtain ⟨K', p', run, factory, hp', notes', outcome⟩ := exists_keepIfNew hj hp notes spells
  refine ⟨⟨⟩, p', run, ?_, factory ▸ ext⟩
  rcases outcome with ⟨refused, rfl, -⟩ | ⟨⟨bound, new⟩, rfl, -⟩
  · refine ⟨K', hB, hK.cover fun hform => ?_, hp', notes'⟩
    obtain ⟨u, hu, same⟩ := exists_of_not_admits refused hform.complexity_le
    exact ⟨u, hu, same, complexity ▸ hK.ledger.bounded hu⟩
  · have hform := (hform (complexity ▸ bound)).imp fun {_ _} hu _ => hB hu
    exact ⟨K ++ [⟨c, t⟩], List.subset_append_of_subset_left _ hB, hK.append new hform complexity,
      hp', notes'⟩

/-- Forming a node over stored elements changes nothing that was selected. -/
theorem ensures_make (hj : Judges task v view Notes) (hv : v.Valid) (readable : v.Readable)
    {m : Node Handle c} (reads : f.Reads m t) (names : m.args.checkNames v = .ok ())
    (positions : m.checkPositions = .ok ()) :
    Ensures (fun p => Selected k v view Notes B n S p ∧ f.Extends p.factory)
      (inFactory (BuildM.make m))
      fun h p => Selected k v view Notes B n S p ∧ f.Extends p.factory ∧
        p.factory.Spells h t := by
  rintro p ⟨⟨K, hB, hK, hp, notes⟩, ext⟩
  have vocabulary := hp.vocabulary
  subst vocabulary
  obtain ⟨h, g, made, grows, spells⟩ :=
    hp.valid.exists_make_reads hv readable (ext.reads reads) names positions
  have hp' := hp.grows grows
  exact ⟨h, _, run_inFactory made, ⟨K, hB, hK, hp', hj.grows notes grows⟩,
    ext.trans grows.extends, spells⟩

/-- All terms that the candidates stand for are covered if they are formed of the list. -/
theorem ensures_consider (ht : task.Endless) (hj : Judges task v view Notes) (hv : v.Valid)
    (readable : v.Readable) {ns : LazyList AnyNode}
    (hns : ∀ y ∈ ns.toList, ∃ x, Proposes task.config v B f n rule y x) :
    Ensures (fun p => Selected task.config v view Notes B n S p ∧ f.Extends p.factory)
      (consider task rule ns)
      fun _ => Selected task.config v view Notes B n
        (S ∪ {x | ∃ y ∈ ns.toList, Proposes task.config v B f n rule y x}) := by
  induction ns generalizing S with
  | nil =>
    refine .pure fun p hp => hp.1.of_subset ?_
    rintro x (hx | ⟨y, hy, -⟩) - -
    · exact hx
    · cases hy
  | cons y ns ih =>
    obtain ⟨x, hx⟩ := hns y (List.mem_cons_self ..)
    have ih := ih ⟨⟩ (S := insert x S) fun y hy => hns y (List.mem_cons_of_mem _ hy)
    cases hx with
    | @intro c m t reads names positions hrule complexity hform =>
      subst hrule
      have make := ensures_make (k := task.config) (B := B) (n := n) (S := S) hj
        hv readable reads names positions
      have keep := fun h => ensures_keepIfNew (f := f) (h := h) hj (S := S) complexity hform
      have step := make.bind fun h => (keep h).bind fun _ => ih
      unfold consider
      apply (ensures_unlessReached ht (fun p hp => hp.1.unlimited) step).imp fun _ hp => hp
      refine fun _ p selected => selected.of_subset ?_
      rintro x (hx | ⟨y, hy, hx⟩) - -
      · exact .inl (.inr hx)
      · rcases List.mem_cons.mp hy with rfl | hy
        · exact .inl (.inl (hx.unique (.intro reads names positions rfl complexity hform)))
        · exact .inr ⟨y, hy, hx⟩

end RunM

end DescLogic.Generator
