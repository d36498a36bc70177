import DescLogic.Generator.Run
import DescLogic.Proofs.Exchange
import DescLogic.Proofs.Factory.Make
import DescLogic.Proofs.Generator.Candidates
import DescLogic.Proofs.Readable
/-!
# The ledger of a run

A run is followed by the list of the terms it has kept, in order. `Records v K p` ties the state of
a run to the list, and `Ledger k v n K` says what is true of the list whatever the state is: it
holds members of the family, once each, in the order of their complexities, up to `n`.

* `Valid.exists_make_reads`: forming a node gives an element whose term is the canonical form of the
  node.
* `Records.grows`, `Records.place`: what forming and keeping an element do to the records.
* `Records.mem_texts`, `Records.nodup_texts`: the result lists the terms of the list, once each.
-/

namespace DescLogic

open Procedure

variable {c : Category} {v : Vocabulary} {f g : Factory} {h : Handle c} {t u : Term c}

/-! ## Terms of nodes -/

/-- Terms that are equal up to exchanging operands have the same canonical form. -/
theorem Term.Exchange.canon_eq (hv : v.Valid) (readable : v.Readable) (ht : t.Fits v)
    (hu : u.Fits v) (h : t.Exchange u) : t.canon = u.canon := by
  apply Term.text_inj hv readable ht.canon hu.canon
  rw [Term.text_canon, Term.text_canon, h.canonText_eq]

namespace Factory

/-- The canonical form of the node, with its operands written out, is `t`. -/
def Reads (f : Factory) (n : Node Handle c) (t : Term c) : Prop :=
  ∃ m : Node Term c, n.Rel f.Spells m ∧ (Term.ofNode m).canon = t

variable {n : Node Handle c} {m : Node Term c}

/-- A node stands for one term. -/
theorem Reads.unique (ht : f.Reads n t) (hu : f.Reads n u) : t = u := by
  obtain ⟨m, hm, rfl⟩ := ht
  obtain ⟨m', hm', rfl⟩ := hu
  cases hm with
  | intro hm =>
    cases hm' with
    | intro hm' =>
      have same := hm.symm.trans hm' fun ht hu => ht.unique hu
      rw [same.eq]

theorem Extends.reads (hfg : f.Extends g) (hn : f.Reads n t) : g.Reads n t := by
  obtain ⟨m, hm, rfl⟩ := hn
  cases hm with
  | intro hm => exact ⟨_, .intro (hm.imp hfg.spells), rfl⟩

/-- A node whose names and positions fit stands for a term that fits. -/
theorem Valid.fits_ofNode (hf : f.Valid) (hm : n.Rel f.Spells m)
    (names : n.args.checkNames f.vocabulary = .ok ()) (positions : n.checkPositions = .ok ()) :
    (Term.ofNode m).Fits f.vocabulary := by
  cases hm with
  | intro hm =>
    rw [Term.fits_ofNode, ← hm.checkNames_eq, ← Node.checkPositions_eq hm]
    exact ⟨names, positions, hm.all_right fun ht => hf.fits ht⟩

/-- A node and the one with its operands exchanged stand for the same term. -/
theorem Valid.reads_swap (hf : f.Valid) (hv : f.vocabulary.Valid)
    (readable : f.vocabulary.Readable) (hn : f.Reads n t)
    (names : n.args.checkNames f.vocabulary = .ok ()) (positions : n.checkPositions = .ok ()) :
    f.Reads n.swap t := by
  obtain ⟨m, hm, rfl⟩ := hn
  have fits := hf.fits_ofNode hm names positions
  have fits' : (Term.ofNode m.swap).Fits f.vocabulary := by
    apply hf.fits_ofNode hm.swap
    · rw [Node.checkNames_swap]
      exact names
    · rw [Node.checkPositions_swap]
      exact positions
  have same := (Term.Exchange.swap m).canon_eq hv readable fits fits'
  exact ⟨m.swap, hm.swap, same.symm⟩

/-- Forming a node gives an element whose term is the canonical form of the node. -/
theorem Valid.exists_make_reads (hf : f.Valid) (hv : f.vocabulary.Valid)
    (readable : f.vocabulary.Readable) (hn : f.Reads n t)
    (names : n.args.checkNames f.vocabulary = .ok ()) (positions : n.checkPositions = .ok ()) :
    ∃ h g, (BuildM.make n).run f = (.ok h, g) ∧ f.Grows g ∧ g.Spells h t := by
  obtain ⟨m, hm, rfl⟩ := hn
  have fits := hf.fits_ofNode hm names positions
  cases hm with
  | @intro o a b hm =>
    obtain ⟨h, g, made⟩ := exists_make hm names positions
    have grows := grows_make made
    have hg := grows.valid hf
    obtain ⟨t, ht, text⟩ := hf.spells_make hm made
    have fits' := hg.fits ht
    rw [grows.extends.vocabulary] at fits'
    have same : t = (Term.ofNode ⟨o, b⟩).canon := by
      apply Term.text_inj hv readable fits' fits.canon
      rw [text, Term.text_canon]
    exact ⟨h, g, made, grows, same ▸ ht⟩

/-- Forming a node whose term is stored already leaves the factory as it is. -/
theorem Valid.make_eq_self (hf : f.Valid) {h' : Handle c}
    (made : (BuildM.make n).run f = (.ok h, g)) (spells : g.Spells h t) (known : f.Spells h' t) :
    g = f := by
  have grown := grows_make made
  obtain rfl := (grown.valid hf).eq_of_text_eq spells (grown.extends.spells known) rfl
  obtain ⟨e, -, inserted⟩ := make_eq_ok made
  unfold Factory.insert at inserted
  cases found : f.find? c e.summary.text with
  | some h' =>
    rw [found] at inserted
    cases inserted
    rfl
  | none =>
    -- A new element would be past the table.
    rw [found] at inserted
    cases inserted
    obtain ⟨e', he'⟩ := known.stored
    exact absurd (index_lt_count he') (Nat.lt_irrefl _)

end Factory

namespace Generator

/-! ## What was kept -/

/-- A term of any category. -/
abbrev AnyTerm := (c : Category) × Term c

/-- What a run notes of the term. -/
def AnyTerm.kept (x : AnyTerm) : Kept := ⟨x.1, x.2.text, x.2.rule⟩

/-- The state of a run that has kept the terms of `K` in this order and has met no limit. -/
structure Records (v : Vocabulary) (K : List AnyTerm) (p : Progress) : Prop where
  /-- The factory is valid. -/
  valid : p.factory.Valid
  /-- The factory is over the vocabulary. -/
  vocabulary : p.factory.vocabulary = v
  /-- No limit was met. -/
  unlimited : p.result.limitReached = false
  /-- The terms are noted in order. -/
  kept : p.result.kept.toList = K.map AnyTerm.kept
  /-- The terms are stored. -/
  spelled : ∀ {c : Category} {t : Term c}, ⟨c, t⟩ ∈ K → ∃ h, p.factory.Spells h t
  /-- The handles are held once each. -/
  tidy : p.pool.Tidy
  /-- The handles are held by complexity. -/
  mem_level : ∀ {c : Category} {h : Handle c} {n : Nat}, h ∈ (p.pool.get c).level n ↔
    ∃ t, ⟨c, t⟩ ∈ K ∧ p.factory.Spells h t ∧ t.complexity = n
  /-- The handles are known to be kept. -/
  mem_placed : ∀ {c : Category} {h : Handle c},
    h ∈ p.placed.get c ↔ ∃ t, ⟨c, t⟩ ∈ K ∧ p.factory.Spells h t

/-- The list holds members of the family once each, in the order of their complexities, up to
`n`. -/
structure Ledger (k : Config) (v : Vocabulary) (n : Nat) (K : List AnyTerm) : Prop where
  /-- No term is held twice. -/
  nodup : K.Nodup
  /-- Complexities do not decrease. -/
  sorted : K.Pairwise fun x y => x.2.complexity ≤ y.2.complexity
  /-- Complexities are at most `n`. -/
  bounded : ∀ {c : Category} {t : Term c}, ⟨c, t⟩ ∈ K → t.complexity ≤ n
  /-- All terms are members of the family. -/
  member : ∀ {c : Category} {t : Term c}, ⟨c, t⟩ ∈ K → Family k v t

variable {k : Config} {n : Nat} {K : List AnyTerm} {p q : Progress}

theorem Ledger.mono (hK : Ledger k v n K) {m : Nat} (hnm : n ≤ m) : Ledger k v m K :=
  { hK with bounded := fun ht => Nat.le_trans (hK.bounded ht) hnm }

/-- A member of the greatest complexity may enter. -/
theorem Ledger.append (hK : Ledger k v n K) (new : ⟨c, t⟩ ∉ K) (ht : Family k v t)
    (complexity : t.complexity = n) : Ledger k v n (K ++ [⟨c, t⟩]) := by
  have mem {d : Category} {u : Term d} (hu : ⟨d, u⟩ ∈ K ++ [⟨c, t⟩]) :
      ⟨d, u⟩ ∈ K ∨ (⟨d, u⟩ : AnyTerm) = ⟨c, t⟩ := by
    simpa using hu
  constructor
  · rw [List.nodup_append]
    refine ⟨hK.nodup, List.pairwise_singleton .., ?_⟩
    intro x hx y hy hxy
    rw [List.mem_singleton] at hy
    exact new (hy ▸ hxy ▸ hx)
  · rw [List.pairwise_append]
    refine ⟨hK.sorted, List.pairwise_singleton .., ?_⟩
    intro x hx y hy
    rw [List.mem_singleton] at hy
    rw [hy, complexity]
    exact hK.bounded hx
  · intro d u hu
    rcases mem hu with hu | hu
    · exact hK.bounded hu
    · cases hu
      omega
  · intro d u hu
    rcases mem hu with hu | hu
    · exact hK.member hu
    · cases hu
      exact ht

theorem exists_mem_append_self {P : Term c → Prop} :
    (∃ u, ⟨c, u⟩ ∈ K ++ [(⟨c, t⟩ : AnyTerm)] ∧ P u) ↔ (∃ u, ⟨c, u⟩ ∈ K ∧ P u) ∨ P t := by
  simp [or_and_right, exists_or]

theorem exists_mem_append_of_ne {d : Category} (hcd : c ≠ d) {P : Term d → Prop} :
    (∃ u, ⟨d, u⟩ ∈ K ++ [(⟨c, t⟩ : AnyTerm)] ∧ P u) ↔ ∃ u, ⟨d, u⟩ ∈ K ∧ P u := by
  simp [hcd.symm]

/-- Nothing is recorded at the start. -/
theorem records_start (hf : f.Valid) : Records f.vocabulary [] (.start f) where
  valid := hf
  vocabulary := rfl
  unlimited := rfl
  kept := rfl
  spelled := by simp
  tidy c := by simpa [Progress.start] using Buckets.tidy_empty
  mem_level := by simp [Progress.start]
  mem_placed := by simp [Progress.start]

theorem Records.total_eq (hp : Records v K p) : p.result.total = K.length := by
  have kept := congrArg List.length hp.kept
  rwa [List.length_map, Array.length_toList] at kept

theorem ledger_nil : Ledger k v n [] := by
  constructor <;> simp

/-- The records stay what they are when the factory grows. -/
theorem Records.grows (hp : Records v K p) (grows : p.factory.Grows g) :
    Records v K { p with factory := g } := by
  have hg : g.Valid := grows.valid hp.valid
  have spells {d : Category} {h : Handle d} {u : Term d} (hu : ⟨d, u⟩ ∈ K) :
      p.factory.Spells h u ↔ g.Spells h u := by
    constructor
    · exact grows.extends.spells
    · intro hg'
      obtain ⟨h', hu'⟩ := hp.spelled hu
      have same : h = h' := hg.eq_of_text_eq hg' (grows.extends.spells hu') rfl
      exact same ▸ hu'
  constructor
  · exact hg
  · exact grows.extends.vocabulary.trans hp.vocabulary
  · exact hp.unlimited
  · exact hp.kept
  · intro d u hu
    obtain ⟨h, hu⟩ := hp.spelled hu
    exact ⟨h, grows.extends.spells hu⟩
  · exact hp.tidy
  · intro d h m
    rw [hp.mem_level]
    exact exists_congr fun u => and_congr_right fun hu => and_congr_left fun _ => spells hu
  · intro d h
    rw [hp.mem_placed]
    exact exists_congr fun u => and_congr_right fun hu => spells hu

/-- Keeping an element enters its term. -/
theorem Records.place (hp : Records v K p) {rule : Rule} {s : Summary} (ht : p.factory.Spells h t)
    (new : ⟨c, t⟩ ∉ K) (hs : s = t.summary) (hrule : t.rule = rule) :
    Records v (K ++ [⟨c, t⟩])
      { p with
        pool := p.pool.modify c (·.push s.complexity h)
        placed := p.placed.modify c (·.insert h)
        result := { p.result with kept := p.result.kept.push ⟨c, s.text, rule⟩ } } := by
  subst hs hrule
  have fresh : ∀ n, h ∉ (p.pool.get c).level n := by
    intro n held
    obtain ⟨u, hu, spells, -⟩ := hp.mem_level.mp held
    exact new (ht.unique spells ▸ hu)
  have handle {h' : Handle c} : h' = h ↔ p.factory.Spells h' t := by
    constructor
    · rintro rfl
      exact ht
    · intro ht'
      exact hp.valid.eq_of_text_eq ht' ht rfl
  constructor
  · exact hp.valid
  · exact hp.vocabulary
  · exact hp.unlimited
  · simp [hp.kept, AnyTerm.kept, Term.text]
  · intro d u hu
    rcases List.mem_append.mp hu with hu | hu
    · exact hp.spelled hu
    · cases List.mem_singleton.mp hu
      exact ⟨h, ht⟩
  · intro d
    by_cases hcd : c = d
    · subst hcd
      simp only [PerCategory.get_modify_self]
      exact (hp.tidy c).push t.one_le_complexity fresh
    · simp only [PerCategory.get_modify_of_ne hcd]
      exact hp.tidy d
  · intro d h' m
    by_cases hcd : c = d
    · subst hcd
      rw [exists_mem_append_self, ← hp.mem_level, ← handle]
      simp only [PerCategory.get_modify_self, Buckets.mem_level_push]
      exact or_congr_right and_comm
    · rw [exists_mem_append_of_ne hcd, ← hp.mem_level]
      simp only [PerCategory.get_modify_of_ne hcd]
  · intro d h'
    by_cases hcd : c = d
    · subst hcd
      rw [exists_mem_append_self, ← hp.mem_placed, ← handle]
      simp only [PerCategory.get_modify_self, Std.HashSet.mem_insert, beq_iff_eq]
      rw [or_comm, eq_comm]
    · rw [exists_mem_append_of_ne hcd, ← hp.mem_placed]
      simp only [PerCategory.get_modify_of_ne hcd]

/-! ## What is listed -/

/-- The term, if it is of category `c`. -/
def AnyTerm.as? (c : Category) (x : AnyTerm) : Option (Term c) :=
  if h : x.1 = c then some (h ▸ x.2) else none

theorem AnyTerm.as?_self {t : Term c} : AnyTerm.as? c ⟨c, t⟩ = some t := dif_pos rfl

theorem AnyTerm.as?_of_ne {d : Category} {t : Term d} (hdc : d ≠ c) :
    AnyTerm.as? c ⟨d, t⟩ = none :=
  dif_neg hdc

theorem AnyTerm.as?_eq_some {x : AnyTerm} {t : Term c} : x.as? c = some t ↔ x = ⟨c, t⟩ := by
  obtain ⟨d, u⟩ := x
  by_cases hdc : d = c
  · subst hdc
    simp [as?_self]
  · simp [as?_of_ne hdc, hdc]

theorem AnyTerm.mem_filterMap_as? {t : Term c} : t ∈ K.filterMap (AnyTerm.as? c) ↔ ⟨c, t⟩ ∈ K := by
  simp [List.mem_filterMap, AnyTerm.as?_eq_some]

theorem texts_eq {r : Result} (hr : r.kept.toList = K.map AnyTerm.kept) :
    r.texts c = (K.filterMap (AnyTerm.as? c)).map Term.text := by
  rw [Result.texts, hr]
  clear hr
  induction K with
  | nil => rfl
  | cons x K ih =>
    obtain ⟨d, t⟩ := x
    by_cases hdc : d = c
    · subst hdc
      simp [AnyTerm.as?_self, AnyTerm.kept, ih]
    · simp [AnyTerm.as?_of_ne hdc, AnyTerm.kept, hdc, ih]

theorem count_eq {r : Result} {rule : Rule} (hr : r.kept.toList = K.map AnyTerm.kept)
    (hc : rule.category = c) :
    r.count rule = (K.filterMap (AnyTerm.as? c)).countP fun t => t.rule = rule := by
  rw [Result.count, hr]
  clear hr
  induction K with
  | nil => rfl
  | cons x K ih =>
    obtain ⟨d, t⟩ := x
    by_cases hdc : d = c
    · subst hdc
      simp [AnyTerm.as?_self, AnyTerm.kept, List.countP_cons, ih]
    · have other : t.rule ≠ rule := by
        rintro rfl
        exact hdc (t.category_rule.symm.trans hc)
      simp [AnyTerm.as?_of_ne hdc, AnyTerm.kept, other, ih]

/-- Terms in the list are told apart by their texts. -/
theorem Records.eq_of_text_eq (hp : Records v K p) {t u : Term c} (ht : ⟨c, t⟩ ∈ K)
    (hu : ⟨c, u⟩ ∈ K) (text : t.text = u.text) : t = u := by
  obtain ⟨h, ht⟩ := hp.spelled ht
  obtain ⟨h', hu⟩ := hp.spelled hu
  obtain rfl := hp.valid.eq_of_text_eq ht hu text
  exact ht.unique hu

/-- The terms in the list are those that the result lists. -/
theorem Records.mem_texts (hp : Records v K p) {text : String} :
    text ∈ p.result.texts c ↔ ∃ t : Term c, ⟨c, t⟩ ∈ K ∧ t.text = text := by
  rw [texts_eq hp.kept, List.mem_map]
  exact exists_congr fun t => and_congr_left fun _ => AnyTerm.mem_filterMap_as?

/-- No text is listed twice. -/
theorem Records.nodup_texts (hp : Records v K p) (nodup : K.Nodup) : (p.result.texts c).Nodup := by
  rw [texts_eq hp.kept]
  apply List.Nodup.map_on
  · intro t ht u hu text
    exact hp.eq_of_text_eq (AnyTerm.mem_filterMap_as?.mp ht) (AnyTerm.mem_filterMap_as?.mp hu) text
  · apply nodup.filterMap
    intro x y t hx hy
    rw [AnyTerm.as?_eq_some.mp hx, AnyTerm.as?_eq_some.mp hy]

end Generator

end DescLogic
