import DescLogic.Proofs.Semantics.Relations
import DescLogic.Relation.Distance
import Mathlib.Algebra.Ring.Nat
import Mathlib.Order.Interval.Finset.Nat
import Mathlib.Order.Bounds.Basic
import Mathlib.Order.Lattice.Nat
/-!
# Distances along relations

`Steps R a k b` says that `k` steps along `R` lead from `a` to `b`. The distance is the least such
number, and `capped P` is the least number with the property `P` as far as it is below
`unreachable`.

* `saturatingSum_eq`, `le_least_iff`: sums and minima do not depend on the order of the terms.
* `ObjectRelation.exists_layer_iff`: layer `k` of a search in breadth holds the objects whose
  nearest source is `k` steps away. The invariant is that the objects seen are those at most that
  far away.
* `ObjectRelation.le_getD_distancesFrom_iff`: the distances that the search finds.
* `ObjectRelation.get_pairwiseDistances`: the distances that the rounds over way stations find. The
  invariant is the triangle inequality at the stations admitted so far.
-/

namespace DescLogic

variable {R : Nat → Nat → Prop} {S : Set Nat} {P : Nat → Prop} {a b c j k x y n : Nat}
  {l : List Nat}

/-! ## Steps -/

/-- The object `b` is reached from `a` in `k` steps. -/
inductive Steps (R : Nat → Nat → Prop) (a : Nat) : Nat → Nat → Prop where
  | refl : Steps R a 0 a
  | tail {k b c : Nat} : Steps R a k b → R b c → Steps R a (k + 1) c

theorem Steps.single (h : R a b) : Steps R a 1 b := .tail .refl h

theorem Steps.trans (hab : Steps R a j b) (hbc : Steps R b k c) : Steps R a (j + k) c := by
  induction hbc with
  | refl => exact hab
  | tail _ h ih => exact .tail ih h

theorem Steps.lift {T : Nat → Nat → Prop} {f : Nat → Nat} (hf : ∀ a b, R a b → T (f a) (f b))
    (h : Steps R a k b) : Steps T (f a) k (f b) := by
  induction h with
  | refl => exact .refl
  | tail _ h ih => exact .tail ih (hf _ _ h)

theorem Steps.swap (h : Steps R a k b) : Steps (fun x y => R y x) b k a := by
  induction h with
  | refl => exact .refl
  | @tail k b c _ h ih =>
    rw [Nat.add_comm]
    exact (Steps.single (R := fun x y => R y x) h).trans ih

/-! ## Capped values -/

/-- The least number with the property, or `unreachable` if there is none below that. -/
noncomputable def capped (P : Nat → Prop) : Nat := sInf {k | P k ∨ k = unreachable}

theorem le_capped_iff : x ≤ capped P ↔ x ≤ unreachable ∧ ∀ k, P k → x ≤ k := by
  constructor
  · intro h
    exact ⟨h.trans (Nat.sInf_le (.inr rfl)), fun k hk => h.trans (Nat.sInf_le (.inl hk))⟩
  · rintro ⟨hx, h⟩
    have least := Nat.sInf_mem (s := {k | P k ∨ k = unreachable}) ⟨_, .inr rfl⟩
    rcases least with hk | hk
    · exact h _ hk
    · exact hx.trans hk.ge

theorem capped_congr {Q : Nat → Prop} (h : ∀ k, P k ↔ Q k) : capped P = capped Q :=
  congrArg capped (funext fun k => propext (h k))

theorem capped_eq_unreachable (h : ∀ k, ¬P k) : capped P = unreachable :=
  eq_of_forall_le_iff fun x => by simp [le_capped_iff, h]

theorem le_least_iff : x ≤ least l ↔ x ≤ unreachable ∧ ∀ y ∈ l, x ≤ y := by
  have fold : ∀ m, x ≤ l.foldl min m ↔ x ≤ m ∧ ∀ y ∈ l, x ≤ y := by
    intro m
    induction l generalizing m with
    | nil => simp
    | cons y l ih => rw [List.foldl_cons, ih, le_min_iff, List.forall_mem_cons, and_assoc]
  exact fold unreachable

/-- A sum is `unreachable` as soon as it is not below that. -/
theorem saturatingSum_eq : saturatingSum l = min l.sum unreachable := by
  have fold : ∀ m, l.foldl saturatingAdd (min m unreachable) = min (m + l.sum) unreachable := by
    intro m
    induction l generalizing m with
    | nil => rfl
    | cons y l ih =>
      have add : saturatingAdd (min m unreachable) y = min (m + y) unreachable := by
        unfold saturatingAdd
        omega
      rw [List.foldl_cons, add, ih, List.sum_cons, Nat.add_assoc]
  simpa [saturatingSum] using fold 0

/-- Terms may be capped before they are summed. -/
theorem saturatingSum_map_min :
    saturatingSum (l.map fun y => min y unreachable) = saturatingSum l := by
  rw [saturatingSum_eq, saturatingSum_eq]
  induction l with
  | nil => rfl
  | cons y l ih =>
    rw [List.map_cons, List.sum_cons, List.sum_cons]
    omega

/-! ## Nearest sources -/

/-- The nearest of the sources `S` is `k` steps away from `b`. -/
def Nearest (R : Nat → Nat → Prop) (S : Set Nat) (k b : Nat) : Prop :=
  IsLeast {k | ∃ a ∈ S, Steps R a k b} k

theorem Nearest.unique (hj : Nearest R S j b) (hk : Nearest R S k b) : j = k := IsLeast.unique hj hk

theorem exists_nearest (h : ∃ k, ∃ a ∈ S, Steps R a k b) : ∃ k, Nearest R S k b := by
  classical
  exact ⟨Nat.find h, Nat.find_spec h, fun k hk => Nat.find_min' h hk⟩

theorem nearest_zero : Nearest R S 0 b ↔ b ∈ S := by
  constructor
  · rintro ⟨⟨a, ha, ⟨⟩⟩, -⟩
    exact ha
  · intro hb
    exact ⟨⟨b, hb, .refl⟩, fun k _ => Nat.zero_le k⟩

/-- An object is one step from a nearer one. -/
theorem Nearest.exists_pred (h : Nearest R S (k + 1) b) : ∃ c, Nearest R S k c ∧ R c b := by
  obtain ⟨⟨a, ha, steps⟩, least⟩ := h
  cases steps with
  | @tail _ c _ hac hcb =>
    refine ⟨c, ⟨⟨a, ha, hac⟩, ?_⟩, hcb⟩
    rintro j ⟨a', ha', hj⟩
    have := least ⟨a', ha', hj.tail hcb⟩
    omega

theorem Nearest.exists_le (h : Nearest R S (k + j) b) : ∃ c, Nearest R S k c := by
  induction j generalizing b with
  | zero => exact ⟨b, h⟩
  | succ j ih =>
    obtain ⟨c, hc, -⟩ := h.exists_pred
    exact ih hc

/-- Among `n` objects none is `n` steps away or more: there is an object at each distance below. -/
theorem Nearest.lt (h : Nearest R S k b) (hlt : ∀ {j c}, Nearest R S j c → c < n) : k < n := by
  -- One object at each distance up to `k`, and an object has one distance.
  have level : ∀ i ≤ k, ∃ c, Nearest R S i c := fun i hi =>
    Nearest.exists_le (j := k - i) (by rwa [Nat.add_sub_cancel' hi])
  choose! f hf using level
  have inj : Set.InjOn f (Finset.range (k + 1)) := by
    intro i hi j hj same
    simp only [Finset.coe_range, Set.mem_Iio] at hi hj
    exact (same ▸ hf i (by omega)).unique (hf j (by omega))
  have card := Finset.card_le_card_of_injOn (s := Finset.range (k + 1)) (t := Finset.range n) f
    (fun i hi => by
      simp only [Finset.coe_range, Set.mem_Iio] at hi ⊢
      exact hlt (hf i (by omega))) inj
  rw [Finset.card_range, Finset.card_range] at card
  omega

/-! ## Search in breadth -/

/-- The members as a set. -/
def ObjectSet.members (d : ObjectSet) : Set Nat := {a | d.contains a = true}

namespace ObjectRelation

variable {r : ObjectRelation} {sources : ObjectSet}

/-- The objects one step from those `k` steps away, unless they are nearer, are `k + 1` steps
away. -/
theorem nearest_succ_iff : Nearest R S (k + 1) b ↔
    (∃ a, Nearest R S k a ∧ R a b) ∧ ¬∃ j ≤ k, Nearest R S j b := by
  constructor
  · intro h
    refine ⟨h.exists_pred, ?_⟩
    rintro ⟨j, hj, h'⟩
    have := h.unique h'
    omega
  · rintro ⟨⟨a, ⟨⟨s, hs, steps⟩, -⟩, hab⟩, far⟩
    refine ⟨⟨s, hs, steps.tail hab⟩, fun m hm => ?_⟩
    obtain ⟨j, hj⟩ := exists_nearest ⟨m, hm⟩
    have := hj.2 hm
    by_contra hlt
    exact far ⟨j, by omega, hj⟩

/-- The layers of a search that has come to the objects `k` steps away, one after the other. -/
theorem exists_layersFrom_iff {rows : Array NatSet} (hrows : ∀ {a b}, Entry rows a b ↔ R a b)
    {fuel : Nat} {seen frontier : NatSet}
    (hseen : ∀ b, seen.contains b = true ↔ ∃ j ≤ k, Nearest R S j b)
    (hfrontier : ∀ b, frontier.contains b = true ↔ Nearest R S k b) :
    (∃ layer, (layersFrom rows fuel seen frontier)[j]? = some layer ∧ layer.contains b = true) ↔
      j < fuel ∧ Nearest R S (k + j) b := by
  -- What is seen is what is at most `k` steps away, so a step that leaves it ends `k + 1` away.
  induction fuel generalizing k j seen frontier with
  | zero => simp [layersFrom]
  | succ fuel ih =>
    rw [layersFrom]
    by_cases hempty : frontier.isEmpty = true
    · rw [if_pos hempty]
      have none_near : ∀ c, ¬Nearest R S k c := fun c hc => by
        have := NatSet.isEmpty_eq_true_iff.mp hempty c
        rw [(hfrontier c).mpr hc] at this
        cases this
      simp only [List.getElem?_nil, reduceCtorEq, false_and, exists_false, false_iff, not_and]
      intro _ h
      obtain ⟨c, hc⟩ := h.exists_le
      exact none_near c hc
    · rw [if_neg hempty]
      cases j with
      | zero => simp [hfrontier]
      | succ j =>
        have hnext : ∀ b, ((frontier.bind fun a => rows.getD a ∅).diff seen).contains b = true ↔
            Nearest R S (k + 1) b := by
          intro b
          rw [NatSet.contains_diff, Bool.and_eq_true, NatSet.contains_bind, Bool.not_eq_true',
            ← Bool.not_eq_true, hseen, nearest_succ_iff]
          simp only [NatSet.mem_iff, hfrontier, ← hrows]
          exact Iff.rfl
        simp only [List.getElem?_cons_succ]
        rw [ih (k := k + 1) ?_ hnext, Nat.add_lt_add_iff_right, Nat.add_assoc, Nat.add_comm 1 j]
        intro b
        rw [NatSet.contains_union, Bool.or_eq_true, hseen, hnext]
        constructor
        · rintro (⟨j, hj, h⟩ | h)
          · exact ⟨j, by omega, h⟩
          · exact ⟨k + 1, le_rfl, h⟩
        · rintro ⟨j, hj, h⟩
          rcases Nat.lt_or_eq_of_le hj with hj | rfl
          · exact .inl ⟨j, by omega, h⟩
          · exact .inr h

section Search

variable (hs : ∀ a ∈ sources.members, a < r.objectCount)

include hs

/-- Objects that are reached are objects of the relation. -/
theorem lt_of_nearest (h : Nearest r.Relates sources.members k b) :
    b < r.objectCount := by
  obtain ⟨⟨_, ha, steps⟩, -⟩ := h
  cases steps with
  | refl => exact hs _ ha
  | tail _ h => exact h.2.1

/-- **Layer `k` holds the objects whose nearest source is `k` steps away.** -/
theorem exists_layer_iff :
    (∃ layer, (r.layers sources)[k]? = some layer ∧ layer.contains b = true) ↔
      Nearest r.Relates sources.members k b := by
  have first : ∀ b, sources.objects.contains b = true ↔
      Nearest r.Relates sources.members 0 b :=
    fun b => (nearest_zero (R := r.Relates) (S := sources.members)).symm
  have seen : ∀ b, sources.objects.contains b = true ↔
      ∃ j ≤ 0, Nearest r.Relates sources.members j b := by
    intro b
    rw [first]
    constructor
    · exact fun h => ⟨0, le_rfl, h⟩
    · rintro ⟨j, hj, h⟩
      obtain rfl := Nat.le_zero.mp hj
      exact h
  rw [layers, exists_layersFrom_iff contains_getD_rows seen first, Nat.zero_add,
    and_iff_right_iff_imp]
  exact fun h => h.lt fun h => lt_of_nearest hs h

/-- An entry of the distances found is the number of steps from the nearest source. -/
theorem getD_distancesFrom_of_nearest
    (h : Nearest r.Relates sources.members k b) :
    (r.distancesFrom sources).getD b unreachable = k := by
  have found : (r.layers sources).findIdx? (fun layer => layer.contains b) = some k := by
    obtain ⟨layer, hlayer, hmem⟩ := (exists_layer_iff hs).mpr h
    obtain ⟨hk, rfl⟩ := List.getElem?_eq_some_iff.mp hlayer
    refine List.findIdx?_eq_some_iff_getElem.mpr ⟨hk, hmem, fun j hj hmem' => ?_⟩
    have := h.unique ((exists_layer_iff hs).mp ⟨_, List.getElem?_eq_getElem (by omega), hmem'⟩)
    omega
  have hb := lt_of_nearest hs h
  simp [distancesFrom, Array.getD_eq_getD_getElem?, hb, found]

/-- The entry of an object that no source reaches is `unreachable`. -/
theorem getD_distancesFrom_of_not
    (h : ∀ k, ¬Nearest r.Relates sources.members k b) :
    (r.distancesFrom sources).getD b unreachable = unreachable := by
  have found : (r.layers sources).findIdx? (fun layer => layer.contains b) = none := by
    refine List.findIdx?_eq_none_iff.mpr fun layer hlayer => Bool.eq_false_iff.mpr fun hmem => ?_
    obtain ⟨k, hk⟩ := List.mem_iff_getElem?.mp hlayer
    exact h k ((exists_layer_iff hs).mp ⟨layer, hk, hmem⟩)
  by_cases hb : b < r.objectCount <;>
    simp [distancesFrom, Array.getD_eq_getD_getElem?, hb, found]

/-- The distances that the search finds, compared with numbers up to `unreachable`. -/
theorem le_getD_distancesFrom_iff (hx : x ≤ unreachable) :
    x ≤ (r.distancesFrom sources).getD b unreachable ↔
      ∀ k, ∀ a ∈ sources.members, Steps r.Relates a k b → x ≤ k := by
  by_cases h : ∃ k, Nearest r.Relates sources.members k b
  · obtain ⟨k, hk⟩ := h
    rw [getD_distancesFrom_of_nearest hs hk]
    constructor
    · exact fun hle j a ha steps => hle.trans (hk.2 ⟨a, ha, steps⟩)
    · obtain ⟨⟨a, ha, steps⟩, -⟩ := hk
      exact fun all => all k a ha steps
  · have h := not_exists.mp h
    rw [getD_distancesFrom_of_not hs h]
    refine iff_of_true hx fun k a ha steps => ?_
    obtain ⟨j, hj⟩ := exists_nearest ⟨k, a, ha, steps⟩
    exact absurd hj (h j)

end Search

/-! ## Rounds over way stations -/

/-- The table has `n` rows with `n` entries each. -/
structure Square (n : Nat) (t : DistanceTable) : Prop where
  /-- There are `n` rows. -/
  size : t.size = n
  /-- A row has `n` entries. -/
  row : ∀ {a}, a < n → (t.getD a #[]).size = n

/-- Pairs without an entry. -/
theorem Square.get_eq_unreachable {t : DistanceTable} (ht : Square n t) (h : ¬(a < n ∧ b < n)) :
    t.get a b = unreachable := by
  by_cases ha : a < n
  · have hb : ¬b < (t.getD a #[]).size := by rw [ht.row ha]; omega
    exact dif_neg hb
  · simp [DistanceTable.get, Array.getD_eq_getD_getElem?, ht.size, ha]

/-- A row after the round for `k`. -/
theorem getD_relaxThrough {t : DistanceTable} (ht : Square n t) (ha : a < n) :
    (relaxThrough t k).getD a #[] =
      if t.get a k = unreachable then t.getD a #[]
      else Array.zipWith (fun direct rest => min direct (saturatingAdd (t.get a k) rest))
        (t.getD a #[]) (t.getD k #[]) := by
  have ha : a < t.size := ht.size ▸ ha
  simp [relaxThrough, DistanceTable.get, Array.getD_eq_getD_getElem?, ha]

theorem square_relaxThrough {t : DistanceTable} (ht : Square n t) (hk : k < n) :
    Square n (relaxThrough t k) where
  size := by rw [relaxThrough, Array.size_map, ht.size]
  row := by
    intro a ha
    rw [getD_relaxThrough ht ha]
    split
    · exact ht.row ha
    · rw [Array.size_zipWith, ht.row ha, ht.row hk, Nat.min_self]

/-- The value of a missing entry is that of a missing entry on both sides. -/
theorem getD_zipWith {α : Type} {f : α → α → α} {xs ys : Array α} {d : α} {i : Nat}
    (h : xs.size = ys.size) (hd : f d d = d) :
    (Array.zipWith f xs ys).getD i d = f (xs.getD i d) (ys.getD i d) := by
  by_cases hi : i < xs.size
  · have hi' : i < ys.size := h ▸ hi
    simp [Array.getD_eq_getD_getElem?, hi, hi']
  · have hi' : ¬i < ys.size := h ▸ hi
    simp [Array.getD_eq_getD_getElem?, hi, hi', hd]

/-- An entry is compared with the way through the station. The cap on the latter makes no
difference. -/
theorem get_relaxThrough {t : DistanceTable} (ht : Square n t)
    (hle : ∀ a b, t.get a b ≤ unreachable) (hk : k < n) :
    (relaxThrough t k).get a b = min (t.get a b) (t.get a k + t.get k b) := by
  have hab := hle a b
  by_cases ha : a < n
  · rw [DistanceTable.get, getD_relaxThrough ht ha]
    split
    · next h =>
      change t.get a b = _
      omega
    · rw [getD_zipWith (by rw [ht.row ha, ht.row hk])]
      · change min (t.get a b) (saturatingAdd (t.get a k) (t.get k b)) = _
        unfold saturatingAdd
        omega
      · unfold saturatingAdd
        omega
  · rw [(square_relaxThrough ht hk).get_eq_unreachable (by omega),
      ht.get_eq_unreachable (b := b) (by omega), ht.get_eq_unreachable (b := k) (by omega)]
    omega

/-- After the rounds for `ks` the entries are numbers of steps or `unreachable`, not above the
distances of neighbours, and the triangle inequality holds at the stations in `ks`. -/
structure ShortenedAt (R : Nat → Nat → Prop) (n : Nat) (ks : List Nat) (T : Nat → Nat → Nat) :
    Prop where
  /-- Entries are numbers of steps. -/
  sound : ∀ {a b}, T a b = unreachable ∨ Steps R a (T a b) b
  /-- Nothing is above `unreachable`. -/
  le : ∀ {a b}, T a b ≤ unreachable
  /-- An object is at no distance from itself. -/
  refl : ∀ {a}, a < n → T a a = 0
  /-- A step is one step. -/
  step : ∀ {a b}, R a b → T a b ≤ 1
  /-- A way through a station is no shorter. -/
  join : ∀ {a k b}, k ∈ ks → T a b ≤ T a k + T k b

theorem ShortenedAt.through {T T' : Nat → Nat → Nat} {ks : List Nat} (h : ShortenedAt R n ks T)
    (hk : k < n) (hT' : ∀ {a b}, T' a b = min (T a b) (T a k + T k b)) :
    ShortenedAt R n (ks ++ [k]) T' where
  sound := by
    intro a b
    have direct := h.sound (a := a) (b := b)
    have bound := h.le (a := a) (b := b)
    rw [hT']
    by_cases hle : T a b ≤ T a k + T k b
    · rwa [min_eq_left hle]
    · rw [min_eq_right (by omega)]
      have toStation : Steps R a (T a k) k := h.sound.resolve_left (by omega)
      have rest : Steps R k (T k b) b := h.sound.resolve_left (by omega)
      exact .inr (toStation.trans rest)
  le := by
    intro a b
    rw [hT']
    exact (min_le_left _ _).trans h.le
  refl := by
    intro a ha
    rw [hT', h.refl ha]
    exact Nat.zero_min _
  step := by
    intro a b hab
    rw [hT']
    exact (min_le_left _ _).trans (h.step hab)
  join := by
    intro a m b hm
    simp only [hT']
    -- A way that passes the station twice is no shorter than one that passes it once.
    have self := h.refl hk
    rcases List.mem_append.mp hm with hm | hm
    · have := h.join (a := a) (b := b) hm
      have := h.join (a := a) (b := k) hm
      have := h.join (a := k) (b := b) hm
      omega
    · obtain rfl := List.mem_singleton.mp hm
      omega

/-- The distances over paths without inner stations. -/
theorem getD_stepDistances (ha : a < r.objectCount) :
    (r.rows.mapIdx (stepDistances r.objectCount)).getD a #[] =
      stepDistances r.objectCount a (r.rows.getD a ∅) := by
  have ha : a < r.rows.size := by simpa [rows_eq] using ha
  simp [Array.getD_eq_getD_getElem?, ha]

theorem square_stepDistances :
    Square r.objectCount (r.rows.mapIdx (stepDistances r.objectCount)) where
  size := by simp [rows_eq]
  row := by
    intro a ha
    rw [getD_stepDistances ha, stepDistances, Array.size_ofFn]

theorem get_stepDistances (ha : a < r.objectCount) (hb : b < r.objectCount) :
    DistanceTable.get (r.rows.mapIdx (stepDistances r.objectCount)) a b =
      if a = b then 0 else if (r.rows.getD a ∅).contains b then 1 else unreachable := by
  rw [DistanceTable.get, getD_stepDistances ha, stepDistances]
  simp [Array.getD_eq_getD_getElem?, hb]

theorem shortenedAt_stepDistances :
    ShortenedAt r.Relates r.objectCount []
      (DistanceTable.get (r.rows.mapIdx (stepDistances r.objectCount))) where
  sound := by
    intro a b
    by_cases h : a < r.objectCount ∧ b < r.objectCount
    · rw [get_stepDistances h.1 h.2]
      split
      · next same => exact .inr (same ▸ .refl)
      · split
        · next hab => exact .inr (.single (contains_getD_rows.mp hab))
        · exact .inl rfl
    · exact .inl (square_stepDistances.get_eq_unreachable h)
  le := by
    intro a b
    by_cases h : a < r.objectCount ∧ b < r.objectCount
    · rw [get_stepDistances h.1 h.2]
      split
      · exact Nat.zero_le _
      · split
        · exact (by decide : 1 ≤ unreachable)
        · exact le_rfl
    · exact (square_stepDistances.get_eq_unreachable h).le
  refl := by
    intro a ha
    rw [get_stepDistances ha ha, if_pos rfl]
  step := by
    intro a b hab
    rw [get_stepDistances hab.1 hab.2.1, if_pos (contains_getD_rows.mpr hab)]
    split
    · exact Nat.zero_le 1
    · exact le_rfl
  join := by
    intro a k b hk
    cases hk

theorem shortenedAt_foldl (r : ObjectRelation) (ks : List Nat) (hks : ∀ k ∈ ks, k < r.objectCount) :
    let t := ks.foldl relaxThrough (r.rows.mapIdx (stepDistances r.objectCount))
    Square r.objectCount t ∧ ShortenedAt r.Relates r.objectCount ks t.get := by
  induction ks using List.reverseRecOn with
  | nil => exact ⟨square_stepDistances, shortenedAt_stepDistances⟩
  | append_singleton ks k ih =>
    rw [List.foldl_append]
    rw [List.forall_mem_append, List.forall_mem_singleton] at hks
    obtain ⟨square, shortened⟩ := ih hks.1
    exact ⟨square_relaxThrough square hks.2,
      shortened.through hks.2 (get_relaxThrough square (fun _ _ => shortened.le) hks.2)⟩

/-- **The rounds find the distances between all pairs of objects.** -/
theorem get_pairwiseDistances (ha : a < r.objectCount) :
    r.pairwiseDistances.get a b = capped (fun k => Steps r.Relates a k b) := by
  obtain ⟨-, shortened⟩ := shortenedAt_foldl r (List.range r.objectCount) (by simp)
  change ShortenedAt _ _ _ r.pairwiseDistances.get at shortened
  refine eq_of_forall_le_iff fun x => ?_
  rw [le_capped_iff]
  constructor
  · intro hx
    refine ⟨hx.trans shortened.le, fun k steps => hx.trans ?_⟩
    -- The last object before the end of the path is a station too.
    clear hx
    induction steps with
    | refl => exact (shortened.refl ha).le
    | @tail k b c _ hbc ih =>
      have := shortened.join (a := a) (b := c) (List.mem_range.mpr hbc.1)
      have := shortened.step hbc
      omega
  · rintro ⟨hx, all⟩
    rcases shortened.sound (a := a) (b := b) with none | steps
    · exact none ▸ hx
    · exact all _ steps

end ObjectRelation

end DescLogic
