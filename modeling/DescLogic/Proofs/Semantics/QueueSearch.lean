import DescLogic.Proofs.Semantics.Checked
import DescLogic.Proofs.Semantics.Words
/-!
# Search with a queue

`ObjectRelation.distancesFrom` searches layer by layer. The same distances are found object by
object: whoever is found goes to the end of a queue, and the steps of the object in front are
followed next. This module runs such a search in words, where it stops without a result as soon as
a sum is not a word or an object is none of the relation.

* `Search`, `ObjectRelation.search`: the search, from a list of sources that may hold an object more
  than once.
* `Search.Explores`: its invariant. The objects that wait are in the order of their distances, and
  no two of these differ by more than one.
* `Search.Explores.near`: whatever is as near as the object in front has been found.
* `ObjectRelation.exists_search`: the search ends, and what it has found.
-/

namespace DescLogic

/-- A search that works off a queue. -/
structure Search where
  /-- The distance of each object that was found, and `unreachable` for the others. -/
  distances : Array Word
  /-- The objects whose steps were not followed yet, the next one in front. -/
  queue : List Nat
  /-- The objects that were put in the queue so far, in that order. -/
  queued : List Nat
deriving DecidableEq, Repr

namespace Search

/-- Notes the distance of an object and puts it in the queue. -/
def enter (s : Search) (b : Nat) (x : Word) : Search :=
  ⟨s.distances.setIfInBounds b x, s.queue ++ [b], s.queued ++ [b]⟩

/-- Enters a source, unless it was entered before. -/
def addSource (s : Search) (a : Nat) : Option Search := do
  if (← s.distances[a]?) = 0 then return s
  return s.enter a 0

/-- Enters an object that a step leads to, unless it was found before. -/
def visit (x : Word) (s : Search) (b : Nat) : Option Search := do
  if (← s.distances[b]?) = Word.unreachable then return s.enter b x
  return s

/-- Follows the steps of the object in front. -/
def advance (successors : Array (List Nat)) (s : Search) : Option Search :=
  match s.queue with
  | [] => some s
  | a :: rest => do
    let x ← Word.add? (← s.distances[a]?) 1
    (← successors[a]?).foldlM (visit x) { s with queue := rest }

/-- Follows the steps of the object in front, so many times. With nothing in the queue nothing
happens. -/
def advanceTimes (successors : Array (List Nat)) (s : Search) : Nat → Option Search
  | 0 => some s
  | k + 1 => do (← s.advance successors).advanceTimes successors k

/-- No object is found. -/
def start (n : Nat) : Search := ⟨Array.replicate n Word.unreachable, [], []⟩

end Search

/-- The successors of all objects. -/
def ObjectRelation.successorTable (r : ObjectRelation) : Array (List Nat) :=
  ((List.range r.objectCount).map r.successors).toArray

/-- The search from the listed sources, with as many rounds as there are objects. -/
def ObjectRelation.search (r : ObjectRelation) (sources : List Nat) : Option Search := do
  let s ← sources.foldlM Search.addSource (.start r.objectCount)
  s.advanceTimes r.successorTable r.objectCount

namespace Search

variable {R : Nat → Nat → Prop} {S : Set Nat} {n a b c j k : Nat} {s t : Search} {x : Word}
  {settled waiting l : List Nat}

/-- The entry of an object. -/
def entry (s : Search) (b : Nat) : Word := s.distances.getD b Word.unreachable

/-- The number of steps that the entry of an object shows. -/
def steps (s : Search) (b : Nat) : Nat := (s.entry b).toNatClampNeg

/-! ## Reading and writing entries -/

theorem getElem?_distances (hb : b < s.distances.size) : s.distances[b]? = some (s.entry b) :=
  getElem?_eq_some_getD Word.unreachable hb

theorem entry_enter (hb : b < s.distances.size) :
    (s.enter b x).entry c = if c = b then x else s.entry c := by
  by_cases same : c = b
  · subst same
    simp [entry, enter, Array.getD_eq_getD_getElem?, hb]
  · simp [entry, enter, Array.getD_eq_getD_getElem?, same, Ne.symm same]

theorem steps_enter (hb : b < s.distances.size) (hx : x.Shows k) :
    (s.enter b x).steps c = if c = b then k else s.steps c := by
  rw [steps, entry_enter hb]
  split
  · exact hx.toNat_eq
  · rfl

/-! ## The invariant -/

/-- The search has found objects at their distances from the sources `S`. Of the objects that were
put in the queue the `settled` ones were followed by all steps, the `waiting` ones were not. -/
structure Explores (R : Nat → Nat → Prop) (S : Set Nat) (n : Nat) (s : Search)
    (settled waiting : List Nat) : Prop where
  /-- Each object has an entry. -/
  size : s.distances.size = n
  /-- Entries are not negative. -/
  shows : ∀ b, (s.entry b).Shows (s.steps b)
  /-- The objects in the queue came last. -/
  queued_eq : s.queued = settled ++ waiting
  /-- No object was put in the queue twice. -/
  nodup : s.queued.Nodup
  /-- Whoever has a distance was put in the queue. -/
  mem_queued : ∀ {b}, b ∈ s.queued ↔ s.steps b ≠ unreachable
  /-- Distances are numbers of steps from the nearest source. -/
  nearest : ∀ {b}, b ∈ s.queued → Nearest R S (s.steps b) b
  /-- Sources are found. -/
  source : ∀ {a}, a ∈ S → a ∈ s.queued
  /-- Whoever is one step from a settled object is found. -/
  closed : ∀ {a b}, a ∈ settled → R a b → b ∈ s.queued
  /-- Who waits longer is farther away, by one step at most. -/
  ordered : waiting.Pairwise fun a b => s.steps a ≤ s.steps b ∧ s.steps b ≤ s.steps a + 1

namespace Explores

theorem mem_queued_of_waiting (h : s.Explores R S n settled waiting) (hb : b ∈ waiting) :
    b ∈ s.queued := by
  rw [h.queued_eq]
  exact List.mem_append_right settled hb

/-- **What is as near as the object in front has been found.** -/
theorem near (h : s.Explores R S n settled (a :: waiting)) (hb : Nearest R S j b)
    (le : j ≤ s.steps a) : b ∈ s.queued := by
  induction j generalizing b with
  | zero => exact h.source (nearest_zero.mp hb)
  | succ j ih =>
    obtain ⟨c, hc, hcb⟩ := hb.exists_pred
    have found := ih hc (by omega)
    have steps : s.steps c = j := (h.nearest found).unique hc
    -- The object before it is nearer than all that wait, so it does not wait.
    rw [h.queued_eq, List.mem_append, List.mem_cons] at found
    rcases found with found | rfl | found
    · exact h.closed found hcb
    · omega
    · have := (List.pairwise_cons.mp h.ordered).1 c found
      omega

/-- Whoever is found from the object in front is one step farther away. -/
theorem nearest_succ (h : s.Explores R S n settled (a :: waiting)) (hab : R a b)
    (new : b ∉ s.queued) : Nearest R S (s.steps a + 1) b := by
  refine ObjectRelation.nearest_succ_iff.mpr ⟨⟨a, ?_, hab⟩, ?_⟩
  · exact h.nearest (h.mem_queued_of_waiting List.mem_cons_self)
  · rintro ⟨j, hj, hb⟩
    exact new (h.near hb hj)

/-- An object that is found goes to the end of the queue. -/
theorem enter (h : s.Explores R S n settled (a :: s.queue)) (hb : b < n) (new : b ∉ s.queued)
    (far : Nearest R S (s.steps a + 1) b) (finite : s.steps a + 1 ≠ unreachable)
    (hx : x.Shows (s.steps a + 1)) :
    (s.enter b x).Explores R S n settled (a :: (s.enter b x).queue) ∧
      (s.enter b x).steps a = s.steps a := by
  have bound : b < s.distances.size := h.size.symm ▸ hb
  have here : (s.enter b x).steps b = s.steps a + 1 := by rw [steps_enter bound hx, if_pos rfl]
  have kept : ∀ {c}, c ∈ s.queued → (s.enter b x).steps c = s.steps c := by
    intro c hc
    rw [steps_enter bound hx, if_neg]
    rintro rfl
    exact new hc
  have front := kept (h.mem_queued_of_waiting List.mem_cons_self)
  have mem_enter : ∀ {c}, c ∈ (s.enter b x).queued ↔ c ∈ s.queued ∨ c = b := by
    simp [Search.enter]
  refine ⟨?_, front⟩
  constructor
  case size => exact Array.size_setIfInBounds.trans h.size
  case shows =>
    intro c
    rw [steps_enter bound hx, entry_enter bound]
    split
    · exact hx
    · exact h.shows c
  case queued_eq => simp [Search.enter, h.queued_eq]
  case nodup => exact h.nodup.append (List.nodup_singleton b) (List.disjoint_singleton.mpr new)
  case mem_queued =>
    intro c
    rw [mem_enter, steps_enter bound hx]
    by_cases same : c = b
    · simp [same, finite]
    · simp [same, h.mem_queued]
  case nearest =>
    intro c hc
    rcases mem_enter.mp hc with hc | rfl
    · exact (kept hc).symm ▸ h.nearest hc
    · exact here.symm ▸ far
  case source => exact fun ha => mem_enter.mpr (.inl (h.source ha))
  case closed => exact fun ha hab => mem_enter.mpr (.inl (h.closed ha hab))
  case ordered =>
    -- Who waits is no farther away than the object entered, and no nearer than the one in front.
    rw [show (s.enter b x).queue = s.queue ++ [b] from rfl, ← List.cons_append,
      List.pairwise_append]
    refine ⟨h.ordered.imp_of_mem fun hc hd le => ?_, List.pairwise_singleton .., ?_⟩
    · rw [kept (h.mem_queued_of_waiting hc), kept (h.mem_queued_of_waiting hd)]
      exact le
    · intro c hc d hd
      obtain rfl := List.mem_singleton.mp hd
      rw [here, kept (h.mem_queued_of_waiting hc)]
      rcases List.mem_cons.mp hc with rfl | hc
      · omega
      · have := (List.pairwise_cons.mp h.ordered).1 c hc
        omega

/-- Visiting an object that a step from the object in front leads to. -/
theorem visit (h : s.Explores R S n settled (a :: s.queue))
    (hlt : ∀ {j c}, Nearest R S j c → c < n) (small : n ≤ unreachable)
    (hx : x.Shows (s.steps a + 1)) (hab : R a b) (hb : b < n) :
    ∃ t, s.visit x b = some t ∧ t.Explores R S n settled (a :: t.queue) ∧ t.steps a = s.steps a ∧
      s.queued ⊆ t.queued ∧ b ∈ t.queued := by
  rw [Search.visit, getElem?_distances (h.size.symm ▸ hb)]
  by_cases found : b ∈ s.queued
  · have known : s.entry b ≠ Word.unreachable :=
      mt (h.shows b).eq_unreachable_iff.mp (h.mem_queued.mp found)
    exact ⟨s, if_neg known, h, rfl, List.Subset.refl _, found⟩
  · have unknown : s.entry b = Word.unreachable :=
      (h.shows b).eq_unreachable_iff.mpr (not_not.mp (mt h.mem_queued.mpr found))
    have far := h.nearest_succ hab found
    have finite := (far.lt hlt).trans_le small
    obtain ⟨entered, front⟩ := h.enter hb found far finite.ne hx
    exact ⟨_, if_pos unknown, entered, front, List.subset_append_left .., List.mem_append_right _
      (List.mem_singleton_self b)⟩

/-- Visiting all objects that are one step from the object in front. -/
theorem visitAll (h : s.Explores R S n settled (a :: s.queue))
    (hlt : ∀ {j c}, Nearest R S j c → c < n) (small : n ≤ unreachable)
    (hx : x.Shows (s.steps a + 1)) (hl : ∀ b ∈ l, R a b ∧ b < n) :
    ∃ t, l.foldlM (Search.visit x) s = some t ∧ t.Explores R S n settled (a :: t.queue) ∧
      s.queued ⊆ t.queued ∧ l ⊆ t.queued := by
  induction l generalizing s with
  | nil => exact ⟨s, rfl, h, List.Subset.refl _, List.nil_subset _⟩
  | cons b l ih =>
    rw [List.forall_mem_cons] at hl
    obtain ⟨t, visited, explores, front, sub, here⟩ := h.visit hlt small hx hl.1.1 hl.1.2
    obtain ⟨u, rest, explores', sub', there⟩ := ih explores (front.symm ▸ hx) hl.2
    refine ⟨u, ?_, explores', List.Subset.trans sub sub', List.cons_subset.mpr ⟨sub' here, there⟩⟩
    rw [List.foldlM_cons, visited]
    exact rest

/-- The object in front is settled when all its steps were followed. -/
theorem settle (h : s.Explores R S n settled (a :: waiting)) (all : ∀ b, R a b → b ∈ s.queued) :
    s.Explores R S n (settled ++ [a]) waiting where
  size := h.size
  shows := h.shows
  queued_eq := by rw [h.queued_eq, List.append_assoc, List.singleton_append]
  nodup := h.nodup
  mem_queued := h.mem_queued
  nearest := h.nearest
  source := h.source
  closed := by
    intro c b hc hcb
    rcases List.mem_append.mp hc with hc | hc
    · exact h.closed hc hcb
    · obtain rfl := List.mem_singleton.mp hc
      exact all b hcb
  ordered := h.ordered.of_cons

/-- One round settles the object in front, and no sum is too great on the way. -/
theorem advance {rest : List Nat} {successors : Array (List Nat)}
    (h : s.Explores R S n settled (a :: rest)) (front : s.queue = a :: rest)
    (hlt : ∀ {j c}, Nearest R S j c → c < n) (small : n ≤ unreachable)
    (listed : successors[a]? = some l) (hl : ∀ b, b ∈ l ↔ R a b) (bounded : ∀ b, R a b → b < n) :
    ∃ t, s.advance successors = some t ∧ t.Explores R S n (settled ++ [a]) t.queue := by
  have nearest := h.nearest (h.mem_queued_of_waiting List.mem_cons_self)
  obtain ⟨x, next, hx⟩ := (h.shows a).exists_add? Word.shows_one
    ((nearest.lt hlt).trans_le small)
  have taken : { s with queue := rest }.Explores R S n settled (a :: rest) := { h with }
  obtain ⟨t, visited, explores, -, all⟩ := taken.visitAll hlt small hx
    fun b hb => ⟨(hl b).mp hb, bounded b ((hl b).mp hb)⟩
  refine ⟨t, ?_, explores.settle fun b hab => all ((hl b).mpr hab)⟩
  rw [Search.advance, front]
  simp only [getElem?_distances (h.size.symm ▸ hlt nearest), listed, next, Option.bind_eq_bind,
    Option.bind_some]
  exact visited

/-- When nothing waits, everything that a path from the sources leads to was found. -/
theorem found (h : s.Explores R S n settled []) (hb : Nearest R S k b) : b ∈ s.queued := by
  induction k generalizing b with
  | zero => exact h.source (nearest_zero.mp hb)
  | succ k ih =>
    obtain ⟨c, hc, hcb⟩ := hb.exists_pred
    have settled := ih hc
    rw [h.queued_eq, List.append_nil] at settled
    exact h.closed settled hcb

/-- There are no more objects in the queue than there are. -/
theorem length_le (h : s.Explores R S n settled waiting)
    (hlt : ∀ {j c}, Nearest R S j c → c < n) : settled.length + waiting.length ≤ n := by
  have inside : s.queued ⊆ List.range n := fun b hb => List.mem_range.mpr (hlt (h.nearest hb))
  have length := (h.nodup.subperm inside).length_le
  rwa [List.length_range, h.queued_eq, List.length_append] at length

end Explores

theorem advanceTimes_of_nil {successors : Array (List Nat)} (h : s.queue = []) :
    s.advanceTimes successors k = some s := by
  induction k with
  | zero => rfl
  | succ k ih =>
    have stays : s.advance successors = some s := by rw [advance, h]
    rw [advanceTimes, stays]
    exact ih

/-! ## Sources -/

/-- The listed sources were entered, and nothing else. -/
structure Started (n : Nat) (l : List Nat) (s : Search) : Prop where
  /-- Each object has an entry. -/
  size : s.distances.size = n
  /-- Nothing has left the queue. -/
  queued_eq : s.queued = s.queue
  /-- No object was put in the queue twice. -/
  nodup : s.queued.Nodup
  /-- The sources were. -/
  mem_queued : ∀ {a}, a ∈ s.queued ↔ a ∈ l
  /-- Sources have distance zero, the others none. -/
  entry_eq : ∀ b, s.entry b = if b ∈ l then 0 else Word.unreachable

theorem started_nil : Started n [] (start n) where
  size := Array.size_replicate
  queued_eq := rfl
  nodup := List.nodup_nil
  mem_queued := Iff.rfl
  entry_eq b := by
    by_cases hb : b < n <;> simp [entry, start, Array.getD_eq_getD_getElem?, hb]

theorem Started.addSource (h : Started n l s) (ha : a < n) :
    ∃ t, s.addSource a = some t ∧ Started n (l ++ [a]) t := by
  have bound : a < s.distances.size := h.size.symm ▸ ha
  rw [Search.addSource, getElem?_distances bound, h.entry_eq]
  by_cases old : a ∈ l
  · have same : ∀ {b}, b ∈ l ++ [a] ↔ b ∈ l := by
      simp only [List.mem_append, List.mem_singleton, or_iff_left_iff_imp]
      rintro _ rfl
      exact old
    refine ⟨s, ?_, h.size, h.queued_eq, h.nodup, h.mem_queued.trans same.symm, ?_⟩
    · rw [if_pos old]
      rfl
    · simpa only [same] using h.entry_eq
  · have new : a ∉ s.queued := mt h.mem_queued.mp old
    refine ⟨s.enter a 0, ?_, Array.size_setIfInBounds.trans h.size, ?_, ?_, ?_, ?_⟩
    · rw [if_neg old]
      rfl
    · exact congrArg (· ++ [a]) h.queued_eq
    · exact h.nodup.append (List.nodup_singleton a) (List.disjoint_singleton.mpr new)
    · simp [enter, h.mem_queued]
    · intro b
      rw [entry_enter bound, h.entry_eq]
      by_cases same : b = a <;> simp [same]

theorem exists_started (hl : ∀ a ∈ l, a < n) :
    ∃ s, l.foldlM addSource (start n) = some s ∧ Started n l s :=
  exists_foldlM started_nil fun _ a _ ha started => started.addSource (hl a ha)

theorem Started.shows (h : Started n l s) (b : Nat) :
    (s.entry b).Shows (if b ∈ l then 0 else unreachable) := by
  rw [h.entry_eq]
  split
  · exact Word.shows_zero
  · exact Word.shows_unreachable

/-- The sources wait, at no distance. -/
theorem Started.explores (h : Started n l s) : s.Explores R {a | a ∈ l} n [] s.queue := by
  have steps_eq (b : Nat) : s.steps b = if b ∈ l then 0 else unreachable := (h.shows b).toNat_eq
  have at_source : ∀ {a}, a ∈ s.queued → s.steps a = 0 := fun ha => by
    rw [steps_eq, if_pos (h.mem_queued.mp ha)]
  constructor
  case size => exact h.size
  case shows => exact fun b => steps_eq b ▸ h.shows b
  case queued_eq => exact h.queued_eq
  case nodup => exact h.nodup
  case mem_queued =>
    intro b
    rw [h.mem_queued, steps_eq]
    by_cases hb : b ∈ l <;> simp [hb, unreachable]
  case nearest =>
    intro b hb
    rw [at_source hb]
    exact nearest_zero.mpr (h.mem_queued.mp hb)
  case source => exact h.mem_queued.mpr
  case closed => exact fun ha => nomatch ha
  case ordered =>
    refine (h.queued_eq ▸ h.nodup).imp_of_mem fun ha hb _ => ?_
    rw [at_source (h.queued_eq.symm ▸ ha), at_source (h.queued_eq.symm ▸ hb)]
    omega

end Search

/-! ## Results -/

/-- The word is the number of steps from the nearest of the sources `S`, or the greatest word if no
path leads there. -/
def Word.IsDistance (R : Nat → Nat → Prop) (S : Set Nat) (b : Nat) (x : Word) : Prop :=
  (∃ k < DescLogic.unreachable, Nearest R S k b ∧ x.Shows k) ∨
    (∀ k, ¬Nearest R S k b) ∧ x = Word.unreachable

/-- When nothing waits, all entries are distances. -/
theorem Search.Explores.isDistance {R : Nat → Nat → Prop} {S : Set Nat} {n b : Nat} {s : Search}
    {settled : List Nat} (h : s.Explores R S n settled [])
    (hlt : ∀ {j c}, Nearest R S j c → c < n) (small : n ≤ unreachable) :
    (s.entry b).IsDistance R S b := by
  by_cases reached : ∃ k, Nearest R S k b
  · obtain ⟨k, hk⟩ := reached
    have nearest := h.nearest (h.found hk)
    exact .inl ⟨s.steps b, (nearest.lt hlt).trans_le small, nearest, h.shows b⟩
  · have none_near := not_exists.mp reached
    have unknown : s.steps b = unreachable :=
      not_not.mp (mt h.mem_queued.mpr fun hb => none_near _ (h.nearest hb))
    exact .inr ⟨none_near, (h.shows b).eq_unreachable_iff.mpr unknown⟩

namespace ObjectRelation

variable {r : ObjectRelation} {sources : List Nat} {x : Word} {a b k : Nat}

theorem members_ofList {n : Nat} : (ObjectSet.ofList n sources).members = {a | a ∈ sources} :=
  Set.ext fun _ => ObjectSet.contains_ofList

/-- The layers of a search hold the same distances. -/
theorem shows_distancesFrom (hs : ∀ a ∈ sources, a < r.objectCount)
    (h : x.IsDistance r.Relates {a | a ∈ sources} b) :
    x.Shows ((r.distancesFrom (.ofList r.objectCount sources)).getD b unreachable) := by
  rw [← members_ofList (n := r.objectCount)] at h
  have hs : ∀ a ∈ (ObjectSet.ofList r.objectCount sources).members, a < r.objectCount :=
    fun a ha => hs a (ObjectSet.contains_ofList.mp ha)
  rcases h with ⟨k, -, nearest, hx⟩ | ⟨none_near, rfl⟩
  · rw [getD_distancesFrom_of_nearest hs nearest]
    exact hx
  · rw [getD_distancesFrom_of_not hs none_near]
    exact Word.shows_unreachable

theorem getElem?_successorTable (ha : a < r.objectCount) :
    r.successorTable[a]? = some (r.successors a) := by
  simp [successorTable, ha]

/-- Whoever is reached from objects is an object. -/
theorem lt_of_nearest_of_mem (hs : ∀ a ∈ sources, a < r.objectCount)
    (h : Nearest r.Relates {a | a ∈ sources} k b) : b < r.objectCount := by
  obtain ⟨⟨_, ha, steps⟩, -⟩ := h
  cases steps with
  | refl => exact hs _ ha
  | tail _ h => exact h.2.1

/-- The rounds of a search. As long as somebody waits each settles one more object. -/
theorem exists_advanceTimes {s : Search} {settled : List Nat}
    (hs : ∀ a ∈ sources, a < r.objectCount) (small : r.objectCount ≤ unreachable)
    (h : s.Explores r.Relates {a | a ∈ sources} r.objectCount settled s.queue) :
    ∃ t settled', s.advanceTimes r.successorTable k = some t ∧
      t.Explores r.Relates {a | a ∈ sources} r.objectCount settled' t.queue ∧
      (t.queue = [] ∨ settled'.length = settled.length + k) := by
  induction k generalizing s settled with
  | zero => exact ⟨s, settled, rfl, h, .inr rfl⟩
  | succ k ih =>
    cases front : s.queue with
    | nil => exact ⟨s, settled, Search.advanceTimes_of_nil front, h, .inl front⟩
    | cons a rest =>
      have waits := front ▸ h
      have ha := lt_of_nearest_of_mem hs (waits.nearest (waits.mem_queued_of_waiting
        List.mem_cons_self))
      obtain ⟨t, advanced, explores⟩ := waits.advance front (lt_of_nearest_of_mem hs) small
        (getElem?_successorTable ha) (fun b => mem_successors ha) fun b hab => hab.2.1
      obtain ⟨u, settled', rest, explores', ends⟩ := ih explores
      refine ⟨u, settled', ?_, explores', ends.imp_right fun length => ?_⟩
      · rw [Search.advanceTimes, advanced]
        exact rest
      · rw [length, List.length_append, List.length_singleton]
        omega

/-- What a search from the listed sources has found. -/
structure Searched (r : ObjectRelation) (sources : List Nat) (s : Search) : Prop where
  /-- Nobody waits any more. -/
  queue_eq : s.queue = []
  /-- No object was put in the queue twice. -/
  nodup : s.queued.Nodup
  /-- Each object has an entry, its distance from the nearest source. -/
  isDistance : ∀ b < r.objectCount, ∃ x, s.distances[b]? = some x ∧
    x.IsDistance r.Relates {a | a ∈ sources} b
  /-- The entries show the distances that the search by layers finds. -/
  numbers : s.distances.map Int32.toNatClampNeg =
    r.distancesFrom (.ofList r.objectCount sources)

/-- **The search ends.** It has a result for all sources, and each sum on the way is a word. -/
theorem exists_search (hs : ∀ a ∈ sources, a < r.objectCount)
    (small : r.objectCount ≤ unreachable) :
    ∃ s, r.search sources = some s ∧ r.Searched sources s := by
  have hlt := fun {j c} => lt_of_nearest_of_mem (k := j) (b := c) hs
  obtain ⟨s, entered, started⟩ := Search.exists_started hs
  obtain ⟨t, settled, run, explores, ends⟩ :=
    exists_advanceTimes (k := r.objectCount) hs small started.explores
  -- If somebody waits then all objects are settled, and there is one more.
  have idle : t.queue = [] := by
    rcases ends with idle | length
    · exact idle
    · have le := explores.length_le hlt
      rw [List.length_nil, Nat.zero_add] at length
      exact List.eq_nil_of_length_eq_zero (by omega)
  rw [idle] at explores
  have isDistance (b : Nat) := explores.isDistance (b := b) hlt small
  refine ⟨t, ?_, idle, explores.nodup, fun b hb => ?_, ?_⟩
  · rw [search, entered]
    exact run
  · exact ⟨_, Search.getElem?_distances (explores.size.symm ▸ hb), isDistance b⟩
  · refine Array.ext (by simp [explores.size, size_distancesFrom]) fun b hb hb' => ?_
    have number := (shows_distancesFrom hs (isDistance b)).toNat_eq
    rw [Array.size_map] at hb
    simp only [Search.entry, Array.getD_eq_getD_getElem?, Array.getElem?_eq_getElem hb,
      Array.getElem?_eq_getElem hb', Option.getD_some] at number
    rw [Array.getElem_map, number]

example :
    let r := ofList 5 [(0, 1), (1, 2), (2, 3)]
    (r.search [0, 2, 0]).map Search.distances = some #[0, 1, 0, 1, Word.unreachable] := by
  decide +kernel

end ObjectRelation

end DescLogic
