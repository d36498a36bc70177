import DescLogic.Proofs.Semantics.QueueSearch
/-!
# Rounds in place

`ObjectRelation.pairwiseDistances` makes a new table in each round over the way stations. The same
distances are found in one table of words, entry by entry: a round reads entries that it may have
written before. This module runs such rounds, which stop without a result as soon as they read or
write outside the table, or write a sum that is not the exact one.

* `WordTable`, `ObjectRelation.shortenInPlace`: the table and the rounds.
* `WordTable.Shows.relax`: a round in place does what a round with a new table does, as the entries
  that it reads are those from before the round.
* `ObjectRelation.exists_shortenInPlace`: the rounds end, and what they have found.
* `ObjectRelation.distances_agree`: the distances from a list of sources are the least of the
  distances from each of them.
-/

namespace DescLogic

/-- A table of words, row by row. -/
abbrev WordTable := Array (Array Word)

namespace WordTable

/-- The entry for `a` and `b`, if the table has one. -/
def read (t : WordTable) (a b : Nat) : Option Word := do (← t[a]?)[b]?

/-- The entry, or `unreachable` if there is none. -/
def entry (t : WordTable) (a b : Nat) : Word := (t.read a b).getD Word.unreachable

/-- Writes an entry, if the table has one there. -/
def write (t : WordTable) (a b : Nat) (x : Word) : Option WordTable := do
  let row ← t[a]?
  let _ ← row[b]?
  return t.setIfInBounds a (row.setIfInBounds b x)

/-- Writes the distance of an object from itself. -/
def addSelf (t : WordTable) (a : Nat) : Option WordTable := t.write a a 0

/-- Writes the distance over one step, unless the step leads nowhere else. -/
def addStep (t : WordTable) (p : Nat × Nat) : Option WordTable :=
  if p.1 = p.2 then some t else t.write p.1 p.2 1

/-- Shortens the distance from `i` to `j` by the way through `k`, where `toStation` is the distance
from `i` to `k`. -/
def relaxEntry (k i : Nat) (toStation : Word) (t : WordTable) (j : Nat) : Option WordTable := do
  let rest ← t.read k j
  let candidate := toStation.saturatingAdd rest
  if candidate < (← t.read i j) then
    -- This holds of each candidate: a sum that was cut off is the greatest word.
    if toStation.add? rest = some candidate then t.write i j candidate else none
  else return t

/-- Shortens the distances from `i`, unless `k` is out of reach. -/
def relaxRow (n k : Nat) (t : WordTable) (i : Nat) : Option WordTable := do
  let toStation ← t.read i k
  if toStation = Word.unreachable then return t
  (List.range n).foldlM (relaxEntry k i toStation) t

/-- Shortens all distances by the ways through `k`. -/
def relax (n : Nat) (t : WordTable) (k : Nat) : Option WordTable :=
  (List.range n).foldlM (relaxRow n k) t

end WordTable

/-- The distances over paths without inner stations. -/
def ObjectRelation.stepsInPlace (r : ObjectRelation) : Option WordTable := do
  let n := r.objectCount
  let apart := Array.replicate n (Array.replicate n Word.unreachable)
  let selves ← (List.range n).foldlM WordTable.addSelf apart
  r.toList.foldlM WordTable.addStep selves

/-- The distances between all pairs of objects. -/
def ObjectRelation.shortenInPlace (r : ObjectRelation) : Option WordTable := do
  let t ← r.stepsInPlace
  (List.range r.objectCount).foldlM (WordTable.relax r.objectCount) t

variable {T T' : Nat → Nat → Nat} {R : Nat → Nat → Prop} {S : Set Nat} {n a b i j k m : Nat}
  {x : Word} {t : WordTable} {r : ObjectRelation} {sources : List Nat}

/-! ## Reading and writing entries -/

/-- The table has `n` rows with `n` entries each, and the entries show the numbers `T`. -/
structure WordTable.Shows (n : Nat) (t : WordTable) (T : Nat → Nat → Nat) : Prop where
  /-- There are `n` rows. -/
  size : t.size = n
  /-- A row has `n` entries. -/
  row : ∀ {a : Nat} {row : Array Word}, t[a]? = some row → row.size = n
  /-- The entries. -/
  read : ∀ {a b}, a < n → b < n → ∃ x, t.read a b = some x ∧ x.Shows (T a b)

namespace WordTable

theorem Shows.congr (h : t.Shows n T) (same : ∀ {a b}, a < n → b < n → T a b = T' a b) :
    t.Shows n T' where
  size := h.size
  row := h.row
  read := by
    intro a b ha hb
    rw [← same ha hb]
    exact h.read ha hb

theorem Shows.le (h : t.Shows n T) (ha : a < n) (hb : b < n) : T a b ≤ unreachable := by
  obtain ⟨x, -, hx⟩ := h.read ha hb
  exact hx.le

theorem shows_replicate :
    Shows n (Array.replicate n (Array.replicate n Word.unreachable)) fun _ _ => unreachable where
  size := Array.size_replicate
  row := by
    intro a row h
    obtain ⟨-, rfl⟩ := Array.getElem?_eq_some_iff.mp h
    simp
  read := by
    intro a b ha hb
    exact ⟨Word.unreachable, by simp [WordTable.read, ha, hb], Word.shows_unreachable⟩

/-- Reading after writing. -/
theorem read_setIfInBounds (ha : a < t.size) (hb : b < t[a].size) :
    read (t.setIfInBounds a (t[a].setIfInBounds b x)) i j =
      if i = a ∧ j = b then some x else t.read i j := by
  by_cases row : i = a
  · subst row
    by_cases column : j = b
    · subst column
      simp [read, ha, hb]
    · simp [read, ha, column, Ne.symm column]
  · simp [read, row, Ne.symm row]

theorem Shows.write (h : t.Shows n T) (ha : a < n) (hb : b < n) (hx : x.Shows m) :
    ∃ u, t.write a b x = some u ∧ u.Shows n fun i j => if i = a ∧ j = b then m else T i j := by
  have ha' : a < t.size := h.size.symm ▸ ha
  have there : t[a]? = some t[a] := Array.getElem?_eq_getElem ha'
  have size : t[a].size = n := h.row there
  have hb' : b < t[a].size := size.symm ▸ hb
  refine ⟨t.setIfInBounds a (t[a].setIfInBounds b x), ?_, ?_, ?_, ?_⟩
  · simp [WordTable.write, there, hb']
  · rw [Array.size_setIfInBounds, h.size]
  · intro i row hi
    by_cases same : i = a
    · subst same
      rw [Array.getElem?_setIfInBounds_self_of_lt ha', Option.some_inj] at hi
      rw [← hi, Array.size_setIfInBounds, size]
    · rw [Array.getElem?_setIfInBounds_ne (Ne.symm same)] at hi
      exact h.row hi
  · intro i j hi hj
    rw [read_setIfInBounds ha' hb']
    split
    · exact ⟨x, rfl, hx⟩
    · exact h.read hi hj

/-! ## One round -/

/-- The numbers after a round for `k`. -/
def through (T : Nat → Nat → Nat) (k a b : Nat) : Nat := min (T a b) (T a k + T k b)

/-- The numbers in the middle of a round for `k`: each is that from before or that from after. -/
def Partway (T : Nat → Nat → Nat) (k : Nat) (U : Nat → Nat → Nat) : Prop :=
  ∀ a b, U a b = T a b ∨ U a b = through T k a b

section Partway

variable {U : Nat → Nat → Nat} (self : T k k = 0) (h : Partway T k U)

include self h

/-- Nothing changes in the row of the station. -/
theorem Partway.row : U k b = T k b := by
  rcases h k b with same | new
  · exact same
  · rw [new, through, self]
    omega

/-- Nothing changes in its column. -/
theorem Partway.column : U a k = T a k := by
  rcases h a k with same | new
  · exact same
  · rw [new, through, self]
    omega

/-- The round goes on as it would have begun. -/
theorem Partway.through_eq : through U k a b = through T k a b := by
  have direct := h a b
  unfold through at direct ⊢
  rw [h.row self, h.column self]
  omega

end Partway

/-- A sum that is less than an entry is written, as it is. -/
theorem Shows.relaxEntry {toStation : Word} (h : t.Shows n T) (hk : k < n) (hi : i < n) (hj : j < n)
    (hm : toStation.Shows (T i k)) :
    ∃ u, t.relaxEntry k i toStation j = some u ∧
      u.Shows n fun a b => if a = i ∧ b = j then through T k a b else T a b := by
  obtain ⟨rest, read_rest, shows_rest⟩ := h.read hk hj
  obtain ⟨direct, read_direct, shows_direct⟩ := h.read hi hj
  have sum := hm.saturatingAdd shows_rest
  have less := sum.lt_iff shows_direct
  have bound := h.le hi hj
  simp only [WordTable.relaxEntry, read_rest, read_direct, Option.bind_eq_bind, Option.bind_some]
  by_cases shorter : T i k + T k j < T i j
  · have below : saturatingAdd (T i k) (T k j) = T i k + T k j := Nat.min_eq_left (by omega)
    rw [below] at sum less
    obtain ⟨z, exact_sum, hz⟩ := hm.exists_add? shows_rest (by omega)
    rw [if_pos (less.mpr shorter), exact_sum, if_pos (congrArg some (hz.eq sum))]
    obtain ⟨u, written, hu⟩ := h.write hi hj sum
    refine ⟨u, written, hu.congr fun _ _ => ?_⟩
    split
    · next same => rw [same.1, same.2, through, Nat.min_eq_right shorter.le]
    · rfl
  · have notLess : ¬saturatingAdd (T i k) (T k j) < T i j := by
      unfold saturatingAdd
      omega
    rw [if_neg (mt less.mp notLess)]
    refine ⟨t, rfl, h.congr fun _ _ => ?_⟩
    split
    · next same => rw [same.1, same.2, through, Nat.min_eq_left (Nat.le_of_not_lt shorter)]
    · rfl

/-- The part of a round for one row. -/
theorem Shows.relaxRow (h : t.Shows n T) (hk : k < n) (hi : i < n) (self : T k k = 0) :
    ∃ u, t.relaxRow n k i = some u ∧
      u.Shows n fun a b => if a = i then through T k a b else T a b := by
  obtain ⟨toStation, read, hm⟩ := h.read hi hk
  rw [WordTable.relaxRow, read]
  by_cases apart : toStation = Word.unreachable
  -- With the station out of reach no way through it is shorter.
  · have far : T i k = unreachable := hm.eq_unreachable_iff.mp apart
    refine ⟨t, if_pos apart, h.congr fun {a b} ha hb => ?_⟩
    have bound := h.le ha hb
    split
    · next same =>
      subst same
      unfold through
      omega
    · rfl
  -- `toStation` is read once. Its entry is in the column of the station and stays as it was.
  · have columns : ∃ u, (List.range n).foldlM (WordTable.relaxEntry k i toStation) t = some u ∧
        u.Shows n fun a b => if a = i ∧ b ∈ List.range n then through T k a b else T a b := by
      refine exists_foldlM (P := fun front u => Shows n u fun a b =>
        if a = i ∧ b ∈ front then through T k a b else T a b) (h.congr fun _ _ => by simp) ?_
      intro front j u hj hu
      have partway : Partway T k fun a b =>
          if a = i ∧ b ∈ front then through T k a b else T a b :=
        fun _ _ => (ite_eq_or_eq _ _ _).symm
      obtain ⟨v, step, hv⟩ := hu.relaxEntry hk hi (List.mem_range.mp hj)
        ((partway.column self).symm ▸ hm)
      refine ⟨v, step, hv.congr fun {a b} _ _ => ?_⟩
      rw [partway.through_eq self]
      by_cases row : a = i <;> by_cases column : b = j <;> simp [row, column]
    obtain ⟨u, rounds, shown⟩ := columns
    refine ⟨u, (if_neg apart).trans rounds, shown.congr fun {a b} _ hb => ?_⟩
    simp [hb]

/-- **A round in place.** What it reads is as it was before the round. -/
theorem Shows.relax (h : t.Shows n T) (hk : k < n) (self : T k k = 0) :
    ∃ u, t.relax n k = some u ∧ u.Shows n (through T k) := by
  have rows : ∃ u, (List.range n).foldlM (WordTable.relaxRow n k) t = some u ∧
      u.Shows n fun a b => if a ∈ List.range n then through T k a b else T a b := by
    refine exists_foldlM (P := fun front u => Shows n u fun a b =>
      if a ∈ front then through T k a b else T a b) (h.congr fun _ _ => by simp) ?_
    intro front i u hi hu
    have partway : Partway T k fun a b => if a ∈ front then through T k a b else T a b :=
      fun _ _ => (ite_eq_or_eq _ _ _).symm
    obtain ⟨v, step, hv⟩ := hu.relaxRow hk (List.mem_range.mp hi) ((partway.row self).trans self)
    refine ⟨v, step, hv.congr fun {a b} _ _ => ?_⟩
    rw [partway.through_eq self]
    by_cases row : a = i <;> simp [row]
  obtain ⟨u, rounds, shown⟩ := rows
  refine ⟨u, rounds, shown.congr fun {a b} ha _ => ?_⟩
  simp [ha]

/-! ## The table at the start -/

theorem exists_addSelf (h : t.Shows n fun _ _ => unreachable) :
    ∃ u, (List.range n).foldlM addSelf t = some u ∧
      u.Shows n fun a b => if a = b then 0 else unreachable := by
  have selves : ∃ u, (List.range n).foldlM addSelf t = some u ∧
      u.Shows n fun a b => if a = b ∧ a ∈ List.range n then 0 else unreachable := by
    refine exists_foldlM (P := fun front u => Shows n u fun a b =>
      if a = b ∧ a ∈ front then 0 else unreachable) (h.congr fun _ _ => by simp) ?_
    intro front i u hi hu
    have hi := List.mem_range.mp hi
    obtain ⟨v, written, hv⟩ := hu.write hi hi Word.shows_zero
    refine ⟨v, written, hv.congr fun {a b} _ _ => ?_⟩
    by_cases same : a = b <;> by_cases here : a = i <;> grind
  obtain ⟨u, written, shown⟩ := selves
  refine ⟨u, written, shown.congr fun {a b} ha _ => ?_⟩
  simp [ha]

theorem exists_addStep {l : List (Nat × Nat)} (hl : ∀ p ∈ l, p.1 < n ∧ p.2 < n)
    (h : t.Shows n fun a b => if a = b then 0 else unreachable) :
    ∃ u, l.foldlM addStep t = some u ∧
      u.Shows n fun a b => if a = b then 0 else if (a, b) ∈ l then 1 else unreachable := by
  refine exists_foldlM (P := fun front u => Shows n u fun a b =>
    if a = b then 0 else if (a, b) ∈ front then 1 else unreachable)
    (h.congr fun _ _ => by simp) ?_
  rintro front ⟨c, d⟩ u hp hu
  by_cases loop : c = d
  · refine ⟨u, if_pos loop, hu.congr fun {a b} _ _ => ?_⟩
    subst loop
    by_cases same : a = b <;> grind
  · obtain ⟨v, written, hv⟩ := hu.write (hl _ hp).1 (hl _ hp).2 Word.shows_one
    refine ⟨v, (if_neg loop).trans written, hv.congr fun {a b} _ _ => ?_⟩
    by_cases same : a = b <;> grind

/-- A table that shows the entries of another one. -/
theorem Shows.map_eq {D : DistanceTable} (h : t.Shows n D.get)
    (square : ObjectRelation.Square n D) :
    t.map (Array.map Int32.toNatClampNeg) = D := by
  have rows : t.size = D.size := h.size.trans square.size.symm
  refine Array.ext (by rw [Array.size_map, rows]) fun a ha ha' => ?_
  rw [Array.size_map] at ha
  have row' : D.getD a #[] = D[a] := by simp [Array.getD_eq_getD_getElem?, ha']
  have size : t[a].size = n := h.row (Array.getElem?_eq_getElem ha)
  have size' : D[a].size = n := row' ▸ square.row (h.size ▸ ha)
  rw [Array.getElem_map]
  refine Array.ext (by rw [Array.size_map, size, size']) fun b hb hb' => ?_
  rw [Array.size_map] at hb
  obtain ⟨x, read, shown⟩ := h.read (h.size ▸ ha) (size ▸ hb)
  have entry : t[a][b] = x := by simpa [WordTable.read, ha, hb] using read
  have entry' : D.get a b = D[a][b] := by
    simp [DistanceTable.get, Array.getD_eq_getD_getElem?, ha', hb']
  rw [Array.getElem_map, entry, shown.toNat_eq, entry']

end WordTable

/-! ## Results -/

/-- The least number of steps from a source, if it is below the cap. -/
theorem capped_of_nearest (h : Nearest R S k b) (hk : k ≤ unreachable) :
    capped (fun k => ∃ a ∈ S, Steps R a k b) = k := by
  refine eq_of_forall_le_iff fun y => ?_
  rw [le_capped_iff]
  constructor
  · exact fun le => le.2 k h.1
  · exact fun le => ⟨le.trans hk, fun j hj => le.trans (h.2 hj)⟩

/-- The least of the capped values. -/
theorem least_map_capped {P : Nat → Nat → Prop} {l : List Nat} :
    least (l.map fun a => capped (P a)) = capped fun k => ∃ a ∈ l, P a k := by
  refine eq_of_forall_le_iff fun y => ?_
  rw [le_least_iff, le_capped_iff, List.forall_mem_map]
  refine and_congr_right fun hy => ?_
  simp only [le_capped_iff, hy, true_and]
  constructor
  · rintro le k ⟨a, ha, hk⟩
    exact le a ha k hk
  · exact fun le a ha k hk => le k ⟨a, ha, hk⟩

/-- The number that a distance shows. -/
theorem Word.IsDistance.shows (h : x.IsDistance R S b) :
    x.Shows (capped fun k => ∃ a ∈ S, Steps R a k b) := by
  rcases h with ⟨k, hk, nearest, hx⟩ | ⟨none_near, rfl⟩
  · rw [capped_of_nearest nearest hk.le]
    exact hx
  · rw [capped_eq_unreachable fun k hk => (exists_nearest ⟨k, hk⟩).elim none_near]
    exact Word.shows_unreachable

theorem Word.isDistance_of_shows (lt : ∀ {k}, Nearest R S k b → k < DescLogic.unreachable)
    (h : x.Shows (capped fun k => ∃ a ∈ S, Steps R a k b)) : x.IsDistance R S b := by
  by_cases reached : ∃ k, Nearest R S k b
  · obtain ⟨k, hk⟩ := reached
    rw [capped_of_nearest hk (lt hk).le] at h
    exact .inl ⟨k, lt hk, hk, h⟩
  · have none_near := not_exists.mp reached
    rw [capped_eq_unreachable fun k hk => (exists_nearest ⟨k, hk⟩).elim none_near] at h
    exact .inr ⟨none_near, h.eq Word.shows_unreachable⟩

namespace ObjectRelation

theorem exists_stepsInPlace (hr : r.Valid) :
    ∃ t, r.stepsInPlace = some t ∧ t.Shows r.objectCount
      (DistanceTable.get (r.rows.mapIdx (stepDistances r.objectCount))) := by
  obtain ⟨selves, written, shown⟩ := WordTable.exists_addSelf
    (WordTable.shows_replicate (n := r.objectCount))
  have inside : ∀ p ∈ r.toList, p.1 < r.objectCount ∧ p.2 < r.objectCount := fun p hp =>
    have step := (mem_toList hr).mp hp
    ⟨step.1, step.2.1⟩
  obtain ⟨t, added, shown'⟩ := WordTable.exists_addStep inside shown
  refine ⟨t, ?_, shown'.congr fun {a b} ha hb => ?_⟩
  · rw [stepsInPlace, written]
    exact added
  · rw [get_stepDistances ha hb]
    have listed := (mem_toList hr).trans (contains_getD_rows (r := r) (a := a) (b := b)).symm
    exact if_congr Iff.rfl rfl (if_congr listed rfl rfl)

/-- The rounds in place do what the rounds with new tables do. -/
theorem shows_shortenInPlace (hr : r.Valid) :
    ∃ t, r.shortenInPlace = some t ∧ t.Shows r.objectCount r.pairwiseDistances.get := by
  obtain ⟨steps, written, shown⟩ := exists_stepsInPlace hr
  have rounds : ∃ t, (List.range r.objectCount).foldlM (WordTable.relax r.objectCount) steps =
      some t ∧ (∀ k ∈ List.range r.objectCount, k < r.objectCount) ∧
        t.Shows r.objectCount r.pairwiseDistances.get := by
    refine exists_foldlM (P := fun front t => (∀ k ∈ front, k < r.objectCount) ∧
      WordTable.Shows r.objectCount t (DistanceTable.get
        (front.foldl relaxThrough (r.rows.mapIdx (stepDistances r.objectCount)))))
      ⟨by simp, shown⟩ ?_
    rintro front k t hk ⟨inside, ht⟩
    -- Both kinds of rounds have the same entries, and the station is at no distance from itself.
    have hk := List.mem_range.mp hk
    obtain ⟨square, shortened⟩ := shortenedAt_foldl r front inside
    obtain ⟨u, round, hu⟩ := ht.relax hk (shortened.refl hk)
    refine ⟨u, round, by simpa [or_imp, forall_and] using ⟨inside, hk⟩, hu.congr fun _ _ => ?_⟩
    rw [List.foldl_append]
    exact (get_relaxThrough square (fun _ _ => shortened.le) hk).symm
  obtain ⟨t, run, -, ht⟩ := rounds
  refine ⟨t, ?_, ht⟩
  rw [shortenInPlace, written]
  exact run

/-- What the rounds in place have found. -/
structure Shortened (r : ObjectRelation) (t : WordTable) : Prop where
  /-- Each pair has an entry, the distance. -/
  isDistance : ∀ a < r.objectCount, ∀ b < r.objectCount, ∃ x, t.read a b = some x ∧
    x.IsDistance r.Relates {a} b
  /-- An object is at no distance from itself. -/
  diagonal : ∀ a < r.objectCount, t.read a a = some 0
  /-- The entries show the distances that the rounds with new tables find. -/
  numbers : t.map (Array.map Int32.toNatClampNeg) = r.pairwiseDistances

/-- **The rounds in place end.** They have a result, and each sum that they write is exact. -/
theorem exists_shortenInPlace (hr : r.Valid) (small : r.objectCount ≤ unreachable) :
    ∃ t, r.shortenInPlace = some t ∧ r.Shortened t := by
  obtain ⟨t, run, shown⟩ := shows_shortenInPlace hr
  obtain ⟨square, shortened⟩ := shortenedAt_foldl r (List.range r.objectCount) (by simp)
  change ShortenedAt _ _ _ r.pairwiseDistances.get at shortened
  refine ⟨t, run, fun a ha b hb => ?_, fun a ha => ?_, shown.map_eq square⟩
  · obtain ⟨x, read, hx⟩ := shown.read ha hb
    rw [get_pairwiseDistances ha] at hx
    refine ⟨x, read, Word.isDistance_of_shows (fun nearest => ?_) (by simpa using hx)⟩
    have inside : ∀ c ∈ [a], c < r.objectCount := by simpa using ha
    have hlt := fun {j c} => lt_of_nearest_of_mem (k := j) (b := c) inside
    simp only [List.mem_singleton] at hlt
    exact (nearest.lt hlt).trans_le small
  · obtain ⟨x, read, hx⟩ := shown.read ha ha
    rw [shortened.refl ha] at hx
    rw [read, hx.eq Word.shows_zero]

/-- The distances from a list of sources and those from each of them. For no sources the least of
them is `unreachable`. -/
structure Agree (r : ObjectRelation) (sources : List Nat) (s : Search) (t : WordTable) : Prop where
  /-- The entries of the search and of the table. -/
  entries : ∀ b < r.objectCount,
    s.distances[b]? = some (Word.least (sources.map fun a => t.entry a b))
  /-- The numbers that layers and rounds find. -/
  numbers : ∀ b < r.objectCount, (r.distancesFrom (.ofList r.objectCount sources))[b]? =
    some (least (sources.map fun a => r.pairwiseDistances.get a b))

theorem Searched.agree {s : Search} (hs : ∀ a ∈ sources, a < r.objectCount)
    (searched : r.Searched sources s) (shortened : r.Shortened t) : r.Agree sources s t := by
  have numbers : ∀ b < r.objectCount, (r.distancesFrom (.ofList r.objectCount sources))[b]? =
      some (least (sources.map fun a => r.pairwiseDistances.get a b)) := by
    intro b hb
    obtain ⟨x, found, isDistance⟩ := searched.isDistance b hb
    have steps : sources.map (fun a => r.pairwiseDistances.get a b) =
        sources.map fun a => capped fun k => Steps r.Relates a k b :=
      List.map_congr_left fun a ha => get_pairwiseDistances (hs a ha)
    rw [← searched.numbers, Array.getElem?_map, found, steps, least_map_capped]
    exact congrArg some isDistance.shows.toNat_eq
  refine ⟨fun b hb => ?_, numbers⟩
  obtain ⟨x, found, isDistance⟩ := searched.isDistance b hb
  have entries : ∀ a ∈ sources, (t.entry a b).Shows (capped fun k => Steps r.Relates a k b) := by
    intro a ha
    obtain ⟨y, read, single⟩ := shortened.isDistance a (hs a ha) b hb
    rw [WordTable.entry, read]
    simpa using single.shows
  have least := Word.shows_least entries
  rw [least_map_capped] at least
  rw [found, isDistance.shows.eq least]

/-- **Both algorithms find the distances.** Neither has a sum that is wrapped around. A sum that is
cut off at the greatest word is not written, as no distance is that great. -/
theorem distances_agree (hr : r.Valid) (small : r.objectCount ≤ unreachable) :
    ∃ t, r.shortenInPlace = some t ∧ r.Shortened t ∧
      ∀ sources, (∀ a ∈ sources, a < r.objectCount) →
        ∃ s, r.search sources = some s ∧ r.Searched sources s ∧ r.Agree sources s t := by
  obtain ⟨t, run, shortened⟩ := exists_shortenInPlace hr small
  refine ⟨t, run, shortened, fun sources hs => ?_⟩
  obtain ⟨s, run', searched⟩ := exists_search hs small
  exact ⟨s, run', searched, searched.agree hs shortened⟩

/-- A cycle with a way into it and a loop, searched from two of the objects, one of them listed
twice. The last object is out of reach. -/
theorem distances_agree_cycle :
    let r := ofList 5 [(0, 1), (1, 2), (2, 2), (2, 3), (3, 1)]
    let sources := [0, 2, 0]
    let table := #[#[0, 1, 2, 3, Word.unreachable], #[Word.unreachable, 0, 1, 2, Word.unreachable],
      #[Word.unreachable, 2, 0, 1, Word.unreachable],
      #[Word.unreachable, 1, 2, 0, Word.unreachable],
      #[Word.unreachable, Word.unreachable, Word.unreachable, Word.unreachable, 0]]
    r.Valid ∧ r.objectCount ≤ unreachable ∧ (∀ a ∈ sources, a < r.objectCount) ∧
      r.shortenInPlace = some table ∧ ∃ s, r.search sources = some s ∧
        s.distances = #[0, 1, 0, 1, Word.unreachable] ∧ r.Agree sources s table := by
  intro r sources table
  have valid : r.Valid := valid_ofList (by decide)
  have small : r.objectCount ≤ unreachable := by decide
  have inside : ∀ a ∈ sources, a < r.objectCount := by decide
  have shortened : r.shortenInPlace = some table := by decide +kernel
  have searched : (r.search sources).map Search.distances =
    some #[0, 1, 0, 1, Word.unreachable] := by decide +kernel
  obtain ⟨t, run, -, all⟩ := distances_agree valid small
  obtain rfl : table = t := Option.some.inj (shortened.symm.trans run)
  obtain ⟨s, found, -, agree⟩ := all sources inside
  rw [found] at searched
  exact ⟨valid, small, inside, shortened, s, found, Option.some.inj searched, agree⟩

end ObjectRelation

end DescLogic
