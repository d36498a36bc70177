import DescLogic.Text.Joined
/-!
# Finite sets of naturals

A `NatSet` is kept as one number whose bit `i` says whether `i` is a member, so two sets with the
same members are the same value, and set algebra is bitwise arithmetic.

* `NatSet.ext_contains`: sets that contain the same numbers are equal.
* `contains_insert`, `contains_erase`, `contains_union`, …: what each operation does to the
  members.
* `contains_bind`: the members of a union over the members of a set.
* `mem_toList`, `toList_pairwise_lt`, `size_eq`: the listing holds the members and nothing else,
  in increasing order, and the size is its length.
* `contains_ofList`: the members of a set that is given by a list.
* `prependBlocks_eq`, `contains_ofBlocks`: a set as a row of blocks of equal width, and back.
-/

namespace DescLogic

/-- A finite set of naturals. -/
structure NatSet where
  /-- Bit `i` is set when `i` is a member. -/
  bits : Nat
deriving DecidableEq, Hashable, Repr

namespace NatSet

/-- The set without members. -/
def empty : NatSet := ⟨0⟩

instance : EmptyCollection NatSet where
  emptyCollection := empty

instance : Inhabited NatSet where
  default := empty

/-- Is `i` a member? -/
def contains (s : NatSet) (i : Nat) : Bool := s.bits.testBit i

instance : Membership Nat NatSet where
  mem s i := s.contains i = true

instance (i : Nat) (s : NatSet) : Decidable (i ∈ s) :=
  inferInstanceAs (Decidable (s.contains i = true))

/-- All numbers below `n`. -/
def full (n : Nat) : NatSet := ⟨1 <<< n - 1⟩

/-- The set with `i` added. -/
def insert (s : NatSet) (i : Nat) : NatSet := ⟨s.bits ||| 1 <<< i⟩

/-- The set without `i`. -/
def erase (s : NatSet) (i : Nat) : NatSet :=
  if s.contains i then ⟨s.bits ^^^ 1 <<< i⟩ else s

/-- The members of either set. -/
def union (s t : NatSet) : NatSet := ⟨s.bits ||| t.bits⟩

/-- The members of both sets. -/
def inter (s t : NatSet) : NatSet := ⟨s.bits &&& t.bits⟩

/-- The members of `s` that are not in `t`. -/
def diff (s t : NatSet) : NatSet := ⟨s.bits ^^^ (s.bits &&& t.bits)⟩

/-- The numbers below `n` that are not in `s`. -/
def complement (s : NatSet) (n : Nat) : NatSet := (full n).diff s

/-- Has the set no member? -/
def isEmpty (s : NatSet) : Bool := s.bits == 0

/-- Is every member of `s` in `t`? -/
def isSubset (s t : NatSet) : Bool := s.inter t == s

/-- Do the sets share a member? -/
def intersects (s t : NatSet) : Bool := !(s.inter t).isEmpty

/-- The numbers below `n` that satisfy `p`. -/
def tabulate (n : Nat) (p : Nat → Bool) : NatSet :=
  n.fold (fun i _ s => if p i then s.insert i else s) empty

/-- The members moved up by `k`. -/
def shift (s : NatSet) (k : Nat) : NatSet := ⟨s.bits <<< k⟩

/-- The members from `start` up to, but not including, `start + n`, moved down by `start`. -/
def slice (s : NatSet) (start n : Nat) : NatSet :=
  let rest := s.bits >>> start
  ⟨if rest.log2 < n then rest else rest &&& (1 <<< n - 1)⟩

/-- The places of the bits that are set in `bits`, a number of `1 <<< depth` bits, each with `base`
added, before `rest`. The upper and the lower half are listed on their own, so long stretches
without a member cost nothing. -/
def prependPlaces : (depth base bits : Nat) → (rest : List Nat) → List Nat
  | 0, base, bits, rest => if bits = 0 then rest else base :: rest
  | depth + 1, base, bits, rest =>
    if bits = 0 then rest
    else
      let half := 1 <<< depth
      prependPlaces depth base (bits &&& (1 <<< half - 1))
        (prependPlaces depth (base + half) (bits >>> half) rest)

/-- The number of bits that are set in `bits`, a number of `1 <<< depth` bits. -/
def countPlaces : (depth bits : Nat) → Nat
  | 0, bits => if bits = 0 then 0 else 1
  | depth + 1, bits =>
    if bits = 0 then 0
    else
      let half := 1 <<< depth
      countPlaces depth (bits &&& (1 <<< half - 1)) + countPlaces depth (bits >>> half)

/-- A number of halvings that leaves single bits of `s`. -/
def depth (s : NatSet) : Nat := (s.bits.log2 + 1).log2 + 1

/-- The members in increasing order. -/
def toList (s : NatSet) : List Nat := prependPlaces s.depth 0 s.bits []

/-- The number of members. -/
def size (s : NatSet) : Nat := countPlaces s.depth s.bits

/-- The set of the places in the list. Those from `32 <<< depth` up are moved down and brought
together on their own, so few of the numbers on the way are long ones. -/
def ofPlaces : (depth : Nat) → List Nat → NatSet
  | 0, places => places.foldl insert empty
  | depth + 1, places =>
    if places.isEmpty then empty
    else
      let half := 32 <<< depth
      let (upper, lower) := places.partition fun i => half ≤ i
      (ofPlaces depth lower).union ((ofPlaces depth (upper.map (· - half))).shift half)

/-- The set of the listed numbers. -/
def ofList (l : List Nat) : NatSet := ofPlaces ((l.foldl max 0) >>> 4).log2 l

/-- The first `1 <<< depth` blocks of `width` numbers each, moved down to begin at zero, before
`rest`. -/
def prependBlocks (width : Nat) : (depth : Nat) → (s : NatSet) → (rest : List NatSet) → List NatSet
  | 0, s, rest => s.slice 0 width :: rest
  | depth + 1, s, rest =>
    let half := width <<< depth
    prependBlocks width depth (s.slice 0 half) (prependBlocks width depth (s.slice half half) rest)

/-- The set with `block start`, `block (start + 1)`, … for its blocks of `width` numbers, of which
there are `1 <<< depth`. -/
def ofBlocks (width : Nat) (block : Nat → NatSet) : (depth start : Nat) → NatSet
  | 0, start => block start
  | depth + 1, start =>
    (ofBlocks width block depth start).union
      ((ofBlocks width block depth (start + 1 <<< depth)).shift (width <<< depth))

/-- The union of the sets `f i` over the members `i` of `s`. -/
def bind (s : NatSet) (f : Nat → NatSet) : NatSet :=
  s.toList.foldl (fun u i => let t := f i; if t.isEmpty then u else u.union t) empty

/-- Sets are ordered as their increasing listings are: at the first difference the smaller number
comes first, and a listing that ends comes before one that goes on. -/
instance : Ord NatSet where
  compare s t := compare s.toList t.toList

/-- The members in braces, as in `{1, 5}`. -/
def text (s : NatSet) : String :=
  "\x7b" ++ Text.joined ", " (s.toList.map toString) ++ "\x7d"

instance : ToString NatSet where
  toString := text

/-! ## Members of each operation -/

variable {s t : NatSet} {i j n : Nat}

theorem mem_iff : i ∈ s ↔ s.contains i = true := Iff.rfl

theorem ext_contains (h : ∀ i, s.contains i = t.contains i) : s = t := by
  cases s; cases t
  simp only [NatSet.mk.injEq]
  exact Nat.eq_of_testBit_eq h

@[simp] theorem contains_empty : (∅ : NatSet).contains i = false := Nat.zero_testBit i

@[simp] theorem contains_full : (full n).contains i = decide (i < n) := by
  simp only [full, contains, Nat.one_shiftLeft, Nat.testBit_two_pow_sub_one]

@[simp] theorem contains_insert : (s.insert j).contains i = (s.contains i || decide (j = i)) := by
  simp [insert, contains, Nat.testBit_or, Nat.one_shiftLeft, Nat.testBit_two_pow]

@[simp] theorem contains_union : (s.union t).contains i = (s.contains i || t.contains i) :=
  Nat.testBit_or ..

@[simp] theorem contains_inter : (s.inter t).contains i = (s.contains i && t.contains i) :=
  Nat.testBit_and ..

@[simp] theorem contains_diff : (s.diff t).contains i = (s.contains i && !t.contains i) := by
  simp only [diff, contains, Nat.testBit_xor, Nat.testBit_and]
  cases s.bits.testBit i <;> cases t.bits.testBit i <;> rfl

@[simp] theorem contains_complement :
    (s.complement n).contains i = (decide (i < n) && !s.contains i) := by
  simp [complement]

@[simp] theorem contains_erase : (s.erase j).contains i = (s.contains i && decide (j ≠ i)) := by
  unfold erase
  split
  · next h =>
    simp only [contains] at h
    simp only [contains, Nat.testBit_xor, Nat.one_shiftLeft, Nat.testBit_two_pow]
    by_cases hj : j = i
    · subst hj; simp [h]
    · simp [hj]
  · next h =>
    by_cases hj : j = i
    · subst hj; simpa using h
    · simp [hj]

theorem contains_tabulate {p : Nat → Bool} :
    (tabulate n p).contains i = (decide (i < n) && p i) := by
  induction n with
  | zero => simp [tabulate]; exact contains_empty
  | succ n ih =>
    have step : tabulate (n + 1) p
        = if p n then (tabulate n p).insert n else tabulate n p := by
      simp [tabulate, Nat.fold_succ]
    rw [step]
    by_cases hi : n = i
    · subst hi; split <;> simp_all
    · have : (i < n + 1) = (i < n) := by simp; omega
      split <;> simp [ih, hi, this]

@[simp] theorem contains_shift :
    (s.shift j).contains i = (decide (j ≤ i) && s.contains (i - j)) :=
  Nat.testBit_shiftLeft ..

@[simp] theorem contains_slice :
    (s.slice j n).contains i = (decide (i < n) && s.contains (j + i)) := by
  simp only [slice, contains, ← Nat.testBit_shiftRight]
  split
  · next h =>
    by_cases hi : i < n
    · simp [hi]
    · have : s.bits >>> j < 2 ^ i :=
        Nat.lt_of_lt_of_le Nat.lt_log2_self (Nat.pow_le_pow_right (by decide) (by omega))
      rw [Nat.testBit_lt_two_pow this, decide_eq_false hi, Bool.false_and]
  · simp only [Nat.one_shiftLeft, Nat.testBit_and, Nat.testBit_two_pow_sub_one]
    exact Bool.and_comm ..

theorem isEmpty_iff : s.isEmpty = true ↔ s = ∅ := by
  simp only [isEmpty, beq_iff_eq]
  exact ⟨fun h => by cases s; exact congrArg NatSet.mk h, fun h => by rw [h]; rfl⟩

/-! ## The listing -/

theorem prependPlaces_eq {depth base bits : Nat} {rest : List Nat}
    (h : bits < 1 <<< (1 <<< depth)) :
    prependPlaces depth base bits rest
      = ((List.range (1 <<< depth)).filter bits.testBit).map (base + ·) ++ rest := by
  simp only [Nat.one_shiftLeft] at h ⊢
  induction depth generalizing base bits rest with
  | zero =>
    have : bits = 0 ∨ bits = 1 := by simp at h; omega
    rcases this with rfl | rfl <;> rfl
  | succ depth ih =>
    unfold prependPlaces
    simp only [Nat.one_shiftLeft]
    split
    · next h0 => simp [h0]
    · have hlow : bits &&& (2 ^ 2 ^ depth - 1) < 2 ^ 2 ^ depth :=
        Nat.and_lt_two_pow _ (Nat.sub_lt (Nat.two_pow_pos _) Nat.one_pos)
      have hhigh : bits >>> 2 ^ depth < 2 ^ 2 ^ depth := by
        rw [Nat.shiftRight_eq_div_pow, Nat.div_lt_iff_lt_mul (Nat.two_pow_pos _), ← Nat.pow_add,
          ← Nat.two_mul, Nat.mul_comm, ← Nat.pow_succ]
        exact h
      have hfilter : (List.range (2 ^ depth)).filter (bits &&& (2 ^ 2 ^ depth - 1)).testBit
          = (List.range (2 ^ depth)).filter bits.testBit := by
        refine List.filter_congr fun i hi => ?_
        simp [List.mem_range.mp hi]
      have hshift : (bits >>> 2 ^ depth).testBit = bits.testBit ∘ (2 ^ depth + ·) := by
        funext i
        exact Nat.testBit_shiftRight ..
      simp only [ih hlow, ih hhigh, hfilter, hshift, Nat.pow_succ, Nat.mul_two, List.range_add,
        List.filter_append, List.filter_map, List.map_append, List.map_map, List.append_assoc]
      simp [Function.comp_def, Nat.add_assoc]

theorem bits_lt_depth (s : NatSet) : s.bits < 1 <<< (1 <<< s.depth) := by
  simp only [Nat.one_shiftLeft]
  exact Nat.lt_of_lt_of_le Nat.lt_log2_self
    (Nat.pow_le_pow_right (by decide) (Nat.le_of_lt Nat.lt_log2_self))

theorem toList_eq (s : NatSet) :
    s.toList = (List.range (1 <<< s.depth)).filter s.contains := by
  rw [toList, prependPlaces_eq s.bits_lt_depth]
  simp only [Nat.zero_add, List.map_id', List.append_nil]
  rfl

theorem lt_of_contains (h : s.contains i = true) : i < 1 <<< s.depth := by
  have hlt := Nat.lt_of_le_of_lt (Nat.ge_two_pow_of_testBit h) s.bits_lt_depth
  simp only [Nat.one_shiftLeft] at hlt ⊢
  exact (Nat.pow_lt_pow_iff_right (by decide)).1 hlt

@[simp] theorem mem_toList : i ∈ s.toList ↔ i ∈ s := by
  simp only [toList_eq, List.mem_filter, List.mem_range, mem_iff, and_iff_right_iff_imp]
  exact lt_of_contains

theorem toList_pairwise_lt (s : NatSet) : s.toList.Pairwise (· < ·) := by
  rw [toList_eq]
  exact List.pairwise_lt_range.filter _

theorem length_prependPlaces {depth base bits : Nat} {rest : List Nat} :
    (prependPlaces depth base bits rest).length = countPlaces depth bits + rest.length := by
  induction depth generalizing base bits rest with
  | zero =>
    unfold prependPlaces countPlaces
    split <;> simp [Nat.add_comm]
  | succ depth ih =>
    unfold prependPlaces countPlaces
    split
    · simp
    · simp only [ih, Nat.add_assoc]

theorem size_eq (s : NatSet) : s.size = s.toList.length := by
  simp [size, toList, length_prependPlaces]

/-! ## Sets of listed numbers -/

@[simp] theorem contains_ofPlaces {depth : Nat} {places : List Nat} :
    (ofPlaces depth places).contains i = decide (i ∈ places) := by
  induction depth generalizing places i with
  | zero =>
    have fold : ∀ (l : List Nat) (s : NatSet),
        (l.foldl insert s).contains i = (s.contains i || decide (i ∈ l)) := by
      intro l
      induction l with
      | nil => simp
      | cons k l ih =>
        intro s
        simp [ih, Bool.or_assoc, eq_comm]
    rw [ofPlaces, fold]
    simp [show empty.contains i = false from contains_empty]
  | succ depth ih =>
    unfold ofPlaces
    split
    · next h =>
      rw [List.isEmpty_iff.mp h]
      exact contains_empty
    · rw [Bool.eq_iff_iff]
      simp only [List.partition_eq_filter_filter, contains_union, contains_shift, ih,
        Bool.or_eq_true, Bool.and_eq_true, decide_eq_true_eq, List.mem_map, List.mem_filter]
      constructor
      · rintro (⟨h, -⟩ | ⟨hi, k, ⟨hk, hle⟩, heq⟩)
        · exact h
        · have : k = i := by omega
          exact this ▸ hk
      · intro h
        by_cases hi : 32 <<< depth ≤ i
        · exact .inr ⟨hi, i, ⟨h, hi⟩, rfl⟩
        · exact .inl ⟨h, by simp [hi]⟩

@[simp] theorem contains_ofList {l : List Nat} : (ofList l).contains i = decide (i ∈ l) :=
  contains_ofPlaces

/-! ## Blocks -/

theorem slice_slice {k m : Nat} (h : k + n ≤ m) :
    (s.slice j m).slice k n = s.slice (j + k) n := by
  refine ext_contains fun i => ?_
  simp only [contains_slice, Nat.add_assoc]
  by_cases hi : i < n
  · simp [hi, show k + i < m by omega]
  · simp [hi]

theorem prependBlocks_eq {width depth : Nat} {rest : List NatSet} :
    prependBlocks width depth s rest
      = (List.range (1 <<< depth)).map (fun a => s.slice (a * width) width) ++ rest := by
  induction depth generalizing s rest with
  | zero => simp [prependBlocks]
  | succ depth ih =>
    simp only [prependBlocks, ih, Nat.shiftLeft_eq, Nat.one_mul, Nat.pow_succ, Nat.mul_two,
      List.range_add, List.map_append, List.map_map, List.append_assoc]
    have fits : ∀ a ∈ List.range (2 ^ depth), a * width + width ≤ width * 2 ^ depth := by
      intro a ha
      rw [← Nat.succ_mul, Nat.mul_comm]
      exact Nat.mul_le_mul_left width (List.mem_range.mp ha)
    congr 1
    · refine List.map_congr_left fun a ha => ?_
      rw [slice_slice (fits a ha), Nat.zero_add]
    · congr 1
      refine List.map_congr_left fun a ha => ?_
      rw [slice_slice (fits a ha), Function.comp_apply, Nat.add_mul, Nat.mul_comm width]

theorem contains_ofBlocks {width depth start : Nat} {block : Nat → NatSet}
    (bounded : ∀ a i, (block a).contains i = true → i < width) :
    (ofBlocks width block depth start).contains i
      = (decide (i < width <<< depth) && (block (start + i / width)).contains (i % width)) := by
  induction depth generalizing start i with
  | zero =>
    by_cases hi : i < width
    · simp [ofBlocks, hi, Nat.div_eq_of_lt, Nat.mod_eq_of_lt]
    · have : (block start).contains i = false := by
        simpa using fun h => hi (bounded start i h)
      simp [ofBlocks, hi, this]
  | succ depth ih =>
    rw [ofBlocks, contains_union, contains_shift, ih, ih]
    simp only [Nat.shiftLeft_eq, Nat.one_mul, Nat.pow_succ, ← Nat.mul_assoc]
    by_cases hi : i < width * 2 ^ depth
    · simp [hi, show i < width * 2 ^ depth * 2 by omega, Nat.not_le.mpr hi]
    · have hle : width * 2 ^ depth ≤ i := Nat.not_lt.mp hi
      by_cases hup : i < width * 2 ^ depth * 2
      · have hw : 0 < width := Nat.pos_of_ne_zero fun h => by simp [h] at hup
        have hquot : 2 ^ depth ≤ i / width := by
          rw [Nat.le_div_iff_mul_le hw, Nat.mul_comm]
          exact hle
        simp only [hi, hle, hup, show i - width * 2 ^ depth < width * 2 ^ depth by omega,
          decide_false, decide_true, Bool.false_and, Bool.true_and, Bool.false_or,
          Nat.sub_mul_div_of_le, Nat.sub_mul_mod hle]
        rw [show start + 2 ^ depth + (i / width - 2 ^ depth) = start + i / width by omega]
      · simp [hi, hup, show ¬ i - width * 2 ^ depth < width * 2 ^ depth by omega]

/-! ## Unions over a set -/

theorem contains_bind {f : Nat → NatSet} :
    (s.bind f).contains i = true ↔ ∃ k ∈ s, (f k).contains i = true := by
  have fold : ∀ (l : List Nat) (u : NatSet),
      (l.foldl (fun u k => if (f k).isEmpty then u else u.union (f k)) u).contains i = true ↔
        u.contains i = true ∨ ∃ k ∈ l, (f k).contains i = true := by
    intro l
    induction l with
    | nil => simp
    | cons k l ih =>
      intro u
      simp only [List.foldl_cons, ih, List.mem_cons, exists_eq_or_imp]
      split
      · next h => simp [isEmpty_iff.mp h]
      · simp [or_assoc]
  have := fold s.toList empty
  simp only [mem_toList] at this
  exact this.trans (by simp [show empty.contains i = false from contains_empty])

end NatSet

end DescLogic
