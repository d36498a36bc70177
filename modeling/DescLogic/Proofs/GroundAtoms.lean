import DescLogic.Proofs.Readable
import DescLogic.Proofs.Registry
import Mathlib.Data.Set.Defs
/-!
# Ground atoms and their names

A ground atom is a predicate over a list of names of objects. A registry knows its atoms by their
names, the text of the predicate applied to the names. The names of predicates and of objects stand
in it as they are, so different ground atoms may have one name, and then only the first of them can
be registered.

* `Registry.refuses_iff_exists`: a ground atom is refused if one with its name is registered.
* `Vocabulary.Legible`: no two ground atoms have one name.
* `Vocabulary.legible_of_separators`: this is so if no predicate holds an opening parenthesis and no
  object a comma. `Vocabulary.legible_univ_iff`: the vocabularies where it is so for any objects.
* `Registry.perform_duplicate_iff`: ground atoms are refused as duplicates exactly if they are
  registered already, in all registries over legible ground atoms and in no others.
* `Registry.refuses_unregistered`: a ground atom that is refused and was not registered.
-/

namespace DescLogic

open Procedure

/-- A predicate over names of objects. -/
structure GroundAtom where
  /-- The name of the predicate. -/
  predicate : String
  /-- The names of the objects. -/
  objects : List String
deriving DecidableEq

namespace GroundAtom

variable {g h : GroundAtom} {N : Set String}

/-- The predicate applied to the names. -/
def name (g : GroundAtom) : String := atomName g.predicate g.objects

/-- The call that registers the ground atom, as a static one if `isStatic` says so. -/
def call (g : GroundAtom) (isStatic : Bool) : Registration :=
  .atomAs isStatic g.predicate g.objects

/-- All objects have names in `N`. -/
def Over (g : GroundAtom) (N : Set String) : Prop := ∀ n ∈ g.objects, n ∈ N

theorem toList_name (g : GroundAtom) :
    g.name.toList = g.predicate.toList ++ groupChars g.objects :=
  toList_applied g.predicate g.objects

end GroundAtom

/-! ## Texts that are told apart -/

namespace Vocabulary

variable {v : Vocabulary} {g h : GroundAtom} {N : Set String} {p q : Predicate}

/-- The vocabulary has the predicate, with as many arguments as there are objects. -/
def Admits (v : Vocabulary) (g : GroundAtom) : Prop :=
  ∃ p, v.predicate g.predicate = .ok p ∧ p.arity = g.objects.length

/-- Ground atoms over objects with names in `N` are told apart by their own names. -/
def Legible (v : Vocabulary) (N : Set String) : Prop :=
  ∀ ⦃g h : GroundAtom⦄, v.Admits g → v.Admits h → g.Over N → h.Over N → g.name = h.name → g = h

/-- Ground atoms of one predicate have equally many objects. -/
theorem Admits.length_eq (hg : v.Admits g) (hh : v.Admits h) (same : g.predicate = h.predicate) :
    g.objects.length = h.objects.length := by
  obtain ⟨p, hp, arity⟩ := hg
  obtain ⟨q, hq, arity'⟩ := hh
  rw [same, hq] at hp
  cases hp
  exact arity.symm.trans arity'

theorem Valid.admits_iff (hv : v.Valid) :
    v.Admits g ↔ ∃ p ∈ v.predicates, p.name = g.predicate ∧ p.arity = g.objects.length := by
  simp only [Admits, hv.predicate_eq_ok_iff, and_assoc]

/-- As many names without commas are told apart by what follows the opening parenthesis. -/
theorem append_restChars_inj {s t : String} {ss ts : List String} (length : ss.length = ts.length)
    (hs : ∀ n ∈ s :: ss, ',' ∉ n.toList) (ht : ∀ n ∈ t :: ts, ',' ∉ n.toList)
    (same : s.toList ++ restChars ss = t.toList ++ restChars ts) : s :: ss = t :: ts := by
  induction ss generalizing s t ts with
  | nil =>
    obtain rfl := List.length_eq_zero_iff.mp length.symm
    rw [String.toList_injective (List.append_cancel_right same)]
  | cons s' ss ih =>
    obtain ⟨t', ts, rfl⟩ := List.exists_cons_of_length_eq_add_one length.symm
    rw [List.forall_mem_cons] at hs ht
    obtain ⟨first, rest⟩ := append_cons_inj hs.1 ht.1 same
    rw [String.toList_injective first, ih (by simpa using length) hs.2 ht.2 rest]

/-- Names are legible if no predicate holds an opening parenthesis and no object a comma. -/
theorem legible_of_separators (hv : v.Valid) (opening : ∀ p ∈ v.predicates, '(' ∉ p.name.toList)
    (comma : ∀ n ∈ N, ',' ∉ n.toList) : v.Legible N := by
  intro g h hg hh hN hN' same
  have spared : ∀ {g}, v.Admits g → '(' ∉ g.predicate.toList := by
    intro g hg
    obtain ⟨p, hp, named, -⟩ := hv.admits_iff.mp hg
    exact named ▸ opening p hp
  have lists := congrArg String.toList same
  rw [GroundAtom.toList_name, GroundAtom.toList_name] at lists
  obtain ⟨P, gs⟩ := g
  obtain ⟨Q, hs⟩ := h
  -- The first opening parenthesis ends the predicate; without one there are no objects.
  cases gs with
  | nil =>
    cases hs with
    | nil =>
      obtain rfl : P = Q := String.toList_injective (List.append_cancel_right lists)
      rfl
    | cons t ts =>
      refine absurd ?_ (spared hg)
      rw [groupChars, List.append_nil] at lists
      simp [show P.toList = _ from lists, groupChars]
  | cons s ss =>
    cases hs with
    | nil =>
      refine absurd ?_ (spared hh)
      simp only [groupChars, List.append_nil] at lists
      simp [← lists]
    | cons t ts =>
      obtain ⟨head, rest⟩ := append_cons_inj (spared hg) (spared hh) lists
      obtain rfl : P = Q := String.toList_injective head
      have length : ss.length = ts.length := by simpa using hg.length_eq hh rfl
      rw [append_restChars_inj length (fun n hn => comma n (hN n hn))
        (fun n hn => comma n (hN' n hn)) rest]

/-- A ground atom of `p` over one object may have the name of a ground atom of `q`, which has one
object at most. -/
def Shadows (p q : Predicate) : Prop :=
  p.arity = 1 ∧
    (q.arity = 0 ∧ (∃ n, q.name = atomName p.name [n]) ∨
      q.arity = 1 ∧ p.name.toList ++ ['('] <+: q.name.toList)

/-- Of two texts of ground atoms over one object, one starts with the predicate of the other. -/
theorem eq_or_shadows (hp : p.arity = 1) (hq : q.arity = 1) {s t : List Char}
    (same : p.name.toList ++ ['('] ++ s = q.name.toList ++ ['('] ++ t) :
    p.name = q.name ∧ s = t ∨ Shadows p q ∨ Shadows q p := by
  have heads := List.prefix_or_prefix_of_prefix (List.prefix_append _ s)
    (same ▸ List.prefix_append (q.name.toList ++ ['(']) t)
  have equal (h : p.name.toList ++ ['('] = q.name.toList ++ ['(']) : p.name = q.name ∧ s = t :=
    ⟨String.toList_injective (List.append_cancel_right h), List.append_cancel_left (h ▸ same)⟩
  simp only [List.prefix_concat_iff] at heads
  rcases heads with (h | longer) | (h | longer)
  · exact .inl (equal h)
  · exact .inr (.inl ⟨hp, .inr ⟨hq, longer⟩⟩)
  · exact .inl (equal h.symm)
  · exact .inr (.inr ⟨hq, .inr ⟨hp, longer⟩⟩)

section Univ

variable (hv : v.Valid)

include hv

/-- Of two objects or more, a comma may belong to the first or to the second. -/
theorem Legible.arity_le_one (legible : v.Legible Set.univ) (hp : p ∈ v.predicates) :
    p.arity ≤ 1 := by
  by_contra many
  let rest := List.replicate (p.arity - 2) ""
  have admits : ∀ {s t}, v.Admits ⟨p.name, s :: t :: rest⟩ := by
    intro s t
    refine hv.admits_iff.mpr ⟨p, hp, rfl, ?_⟩
    simp only [List.length_cons, rest, List.length_replicate]
    omega
  have same := legible (g := ⟨p.name, "," :: "" :: rest⟩) (h := ⟨p.name, "" :: "," :: rest⟩)
    admits admits (fun _ _ => trivial) (fun _ _ => trivial) (String.toList_injective (by
      simp [GroundAtom.toList_name, groupChars, restChars]))
  simp at same

theorem Legible.not_shadows (legible : v.Legible Set.univ) (hp : p ∈ v.predicates)
    (hq : q ∈ v.predicates) : ¬ Shadows p q := by
  rintro ⟨one, ⟨none, n, named⟩ | ⟨one', z, longer⟩⟩
  · have same := legible (g := ⟨q.name, []⟩) (h := ⟨p.name, [n]⟩)
      (hv.admits_iff.mpr ⟨q, hq, rfl, none⟩) (hv.admits_iff.mpr ⟨p, hp, rfl, one⟩)
      (fun _ _ => trivial) (fun _ _ => trivial) named
    simp at same
  · have same := legible (g := ⟨q.name, [""]⟩) (h := ⟨p.name, [.ofList (z ++ ['('])]⟩)
      (hv.admits_iff.mpr ⟨q, hq, rfl, one'⟩) (hv.admits_iff.mpr ⟨p, hp, rfl, one⟩)
      (fun _ _ => trivial) (fun _ _ => trivial) (String.toList_injective (by
        simp [GroundAtom.toList_name, groupChars, restChars, ← longer]))
    simp at same

theorem legible_of_not_shadows (few : ∀ p ∈ v.predicates, p.arity ≤ 1)
    (apart : ∀ p ∈ v.predicates, ∀ q ∈ v.predicates, ¬ Shadows p q) : v.Legible N := by
  rintro ⟨P, gs⟩ ⟨Q, hs⟩ hg hh - - same
  obtain ⟨p, hp, rfl, arity⟩ := hv.admits_iff.mp hg
  obtain ⟨q, hq, rfl, arity'⟩ := hv.admits_iff.mp hh
  have lists := congrArg String.toList same
  rw [GroundAtom.toList_name, GroundAtom.toList_name] at lists
  have short := arity ▸ few p hp
  have short' := arity' ▸ few q hq
  match gs, hs with
  | [], [] =>
    have head : p.name = q.name := String.toList_injective (List.append_cancel_right lists)
    rw [head]
  | [], [t] => exact absurd ⟨arity', .inl ⟨arity, t, same⟩⟩ (apart q hq p hp)
  | [s], [] => exact absurd ⟨arity, .inl ⟨arity', s, same.symm⟩⟩ (apart p hp q hq)
  | [s], [t] =>
    have closed : p.name.toList ++ ['('] ++ s.toList ++ [')'] =
        q.name.toList ++ ['('] ++ t.toList ++ [')'] := by
      simpa [groupChars, restChars] using lists
    rcases eq_or_shadows arity arity' (List.append_cancel_right closed) with
      ⟨head, object⟩ | shadows | shadows
    · rw [head, String.toList_injective object]
    · exact absurd shadows (apart p hp q hq)
    · exact absurd shadows (apart q hq p hp)
  | _ :: _ :: _, _ => simp at short
  | _, _ :: _ :: _ => simp at short'

/-- Ground atoms are legible whatever the objects are called exactly if every predicate has one
argument at most and none shadows another. -/
theorem legible_univ_iff :
    v.Legible Set.univ ↔
      (∀ p ∈ v.predicates, p.arity ≤ 1) ∧
        ∀ p ∈ v.predicates, ∀ q ∈ v.predicates, ¬ Shadows p q := by
  constructor
  · intro legible
    exact ⟨fun p => legible.arity_le_one hv, fun p hp q hq => legible.not_shadows hv hp hq⟩
  · rintro ⟨few, apart⟩
    exact legible_of_not_shadows hv few apart

end Univ

end Vocabulary

/-! ## What is registered -/

namespace Registry

variable {v : Vocabulary} {r r' : Registry} {a : Atom} {g h : GroundAtom} {N : Set String}
  {isStatic : Bool} {cs : List Registration} {n : Nat}

/-- The atom has the predicate of the ground atom, and objects with its names. -/
structure Reads (r : Registry) (a : Atom) (g : GroundAtom) : Prop where
  /-- The predicate has the name. -/
  predicate : (r.vocabulary.predicates[a.predicate]?).map Predicate.name = some g.predicate
  /-- The objects have the names, one by one. -/
  objects : List.Forall₂ (fun x name => (r.objects[x]?).map Object.name = some name) a.objects
    g.objects

/-- An atom of the registry is the ground atom. -/
def Registers (r : Registry) (g : GroundAtom) : Prop := ∃ a ∈ r.atoms, r.Reads a g

/-- The name of the ground atom leads to an atom of the registry that is the ground atom. -/
def Finds (r : Registry) (g : GroundAtom) : Prop :=
  ∃ n a, r.atomIndex? g.name = some n ∧ r.atoms[n]? = some a ∧ r.Reads a g

/-- The call is refused since the name of the ground atom is taken. -/
def Refuses (r : Registry) (g : GroundAtom) (isStatic : Bool) : Prop :=
  ((g.call isStatic).perform.run r).1 = .error (.duplicateAtom g.name)

theorem Reads.unique (hg : r.Reads a g) (hh : r.Reads a h) : g = h := by
  obtain ⟨P, gs⟩ := g
  obtain ⟨Q, hs⟩ := h
  obtain rfl : P = Q := Option.some.inj (hg.predicate.symm.trans hh.predicate)
  have objects : gs = hs := List.ext_getElem? fun i => by
    rw [getElem?_eq_bind hg.objects, getElem?_eq_bind hh.objects]
  rw [objects]

theorem Records.reads {predicate : String} {names : List String}
    (ha : r.Records a isStatic predicate names) : r.Reads a ⟨predicate, names⟩ := by
  obtain ⟨p, hp, named, -⟩ := ha.predicate
  refine ⟨?_, ha.objects.imp fun x name hx => ?_⟩
  · rw [hp, Option.map_some, named]
  · rw [hx, Option.map_some]

theorem Reads.mono (ha : r.Reads a g) (le : r.Extends r') : r'.Reads a g where
  predicate := le.vocabulary ▸ ha.predicate
  objects := ha.objects.imp fun x name hx => by
    obtain ⟨o, ho, named⟩ := Option.map_eq_some_iff.mp hx
    rw [le.objects ho, Option.map_some, named]

/-- Every atom is some ground atom, and has its name. -/
theorem exists_reads (hv : v.Valid) (ha : ((ofVocabulary v).after cs).atoms[n]? = some a) :
    ∃ g, ((ofVocabulary v).after cs).Reads a g ∧ a.name = g.name := by
  obtain ⟨_, _, predicate, names, _, -, -, records⟩ := exists_records hv ha
  exact ⟨⟨predicate, names⟩, records.reads, records.name⟩

/-- All that is checked of a ground atom is whether its name is taken. -/
theorem checkAtom_eq {p : Predicate} (hp : r.vocabulary.predicate g.predicate = .ok p)
    (arity : p.arity = g.objects.length) :
    r.checkAtom g.predicate g.objects =
      if (r.atomIndex? g.name).isSome then .error (.duplicateAtom g.name) else .ok p := by
  unfold checkAtom
  rw [hp]
  show (if p.arity ≠ g.objects.length then _ else _) = _
  rw [if_neg (not_not_intro arity)]
  rfl

theorem run_call_of_taken (hg : r.vocabulary.Admits g)
    (taken : (r.atomIndex? g.name).isSome = true) :
    (g.call isStatic).perform.run r = (.error (.duplicateAtom g.name), r) := by
  obtain ⟨p, hp, arity⟩ := hg
  have checked := checkAtom_eq hp arity
  rw [if_pos taken] at checked
  rw [GroundAtom.call, Registration.perform_atomAs, run_map, run_addAtomAs_of_error checked]
  rfl

theorem Coherent.exists_run_call (hr : r.Coherent) (hv : r.vocabulary.Valid)
    (hg : r.vocabulary.Admits g) (new : r.atomIndex? g.name = none) (isStatic : Bool) :
    ∃ a r', (g.call isStatic).perform.run r = (.ok (.inr a), r') ∧ r'.atoms = r.atoms.push a ∧
      r'.Reads a g := by
  obtain ⟨p, hp, arity⟩ := hg
  have checked := checkAtom_eq hp arity
  rw [new] at checked
  obtain ⟨xs, r₁, resolved, -⟩ := hr.run_resolveObjects g.objects
  have hrun : (RegisterM.addAtomAs isStatic g.predicate g.objects).run r = _ :=
    run_addAtomAs_of_ok checked resolved
  obtain ⟨atoms, records⟩ := hr.addAtomAs_eq_ok hv hrun
  refine ⟨_, _, ?_, atoms, records.reads⟩
  rw [GroundAtom.call, Registration.perform_atomAs, run_map, hrun]
  rfl

/-- A ground atom is refused exactly if its name is taken. -/
theorem Coherent.refuses_iff (hr : r.Coherent) (hv : r.vocabulary.Valid)
    (hg : r.vocabulary.Admits g) : r.Refuses g isStatic ↔ (r.atomIndex? g.name).isSome = true := by
  constructor
  · intro refused
    by_contra free
    obtain ⟨a, r', hrun, -⟩ :=
      hr.exists_run_call hv hg (Option.not_isSome_iff_eq_none.mp free) isStatic
    rw [Refuses, hrun] at refused
    cases refused
  · intro taken
    rw [Refuses, run_call_of_taken hg taken]

section Reachable

variable (hv : v.Valid) (hr : (ofVocabulary v).after cs = r)

include hv hr

theorem valid_after : r.Valid v := by
  subst hr
  obtain ⟨coherent, built⟩ := coherent_after cs hv
  exact coherent.valid (built.valid hv)

theorem vocabulary_after : r.vocabulary = v := (valid_after hv hr).vocabulary

/-- What is registered is admitted by the vocabulary. -/
theorem Registers.admits (hg : r.Registers g) : v.Admits g := by
  have valid := valid_after hv hr
  obtain ⟨a, ha, reads⟩ := hg
  obtain ⟨p, hp, arity⟩ := valid.atom_arity ha
  have named := reads.predicate
  rw [valid.vocabulary, hp] at named
  exact hv.admits_iff.mpr ⟨p, Array.mem_of_getElem? hp, Option.some.inj named,
    arity.symm.trans reads.objects.length_eq⟩

/-- What is registered is found by its name. -/
theorem Registers.finds (hg : r.Registers g) : r.Finds g := by
  subst hr
  obtain ⟨a, ha, reads⟩ := hg
  obtain ⟨n, hn⟩ := Array.mem_iff_getElem?.mp ha
  obtain ⟨h, reads', named⟩ := exists_reads hv hn
  rw [← reads.unique reads'] at named
  exact ⟨n, a, (coherent_after cs hv).1.atoms.place_iff.mpr ⟨a, hn, named⟩, hn, reads⟩

/-- The name of a ground atom is taken exactly if one with that name is registered. -/
theorem isSome_atomIndex?_iff {s : String} :
    (r.atomIndex? s).isSome = true ↔ ∃ g, r.Registers g ∧ g.name = s := by
  constructor
  · intro taken
    subst hr
    obtain ⟨n, hn⟩ := Option.isSome_iff_exists.mp taken
    obtain ⟨a, ha, rfl⟩ := (coherent_after cs hv).1.atoms.place_iff.mp hn
    obtain ⟨g, reads, named⟩ := exists_reads hv ha
    exact ⟨g, ⟨a, Array.mem_of_getElem? ha, reads⟩, named.symm⟩
  · rintro ⟨g, hg, rfl⟩
    obtain ⟨n, a, found, -⟩ := hg.finds hv hr
    rw [found]
    rfl

/-- A ground atom is refused exactly if one with the same name is registered. -/
theorem refuses_iff_exists (hg : v.Admits g) :
    r.Refuses g isStatic ↔ ∃ h, r.Registers h ∧ h.name = g.name := by
  have coherent : r.Coherent := hr ▸ (coherent_after cs hv).1
  obtain rfl := vocabulary_after hv hr
  rw [← isSome_atomIndex?_iff hv hr]
  exact coherent.refuses_iff hv hg

/-- A ground atom that is not refused is registered, beside those that were. -/
theorem exists_run_of_not_refuses (hg : v.Admits g) (isStatic : Bool)
    (free : ¬ r.Refuses g isStatic) :
    ∃ a r', (g.call isStatic).perform.run r = (.ok (.inr a), r') ∧
      (ofVocabulary v).after (cs ++ [g.call isStatic]) = r' ∧
      ∀ h, r'.Registers h ↔ r.Registers h ∨ h = g := by
  have coherent : r.Coherent := hr ▸ (coherent_after cs hv).1
  obtain rfl := vocabulary_after hv hr
  rw [coherent.refuses_iff hv hg, Option.not_isSome_iff_eq_none] at free
  obtain ⟨a, r', hrun, atoms, reads⟩ := coherent.exists_run_call hv hg free isStatic
  have le : r.Extends r' := moves_perform.rel hrun
  refine ⟨a, r', hrun, ?_, fun h => ⟨?_, ?_⟩⟩
  · rw [after_append, hr]
    exact congrArg Prod.snd hrun
  · rintro ⟨b, hb, reads'⟩
    rw [atoms, Array.mem_push] at hb
    rcases hb with hb | rfl
    · obtain ⟨n, hn⟩ := Array.mem_iff_getElem?.mp hb
      obtain ⟨h', earlier, -⟩ := exists_reads hv (hr ▸ hn)
      rw [hr] at earlier
      rw [reads'.unique (earlier.mono le)]
      exact .inl ⟨b, hb, earlier⟩
    · exact .inr (reads'.unique reads)
  · rintro (⟨b, hb, earlier⟩ | rfl)
    · exact ⟨b, atoms ▸ Array.mem_push_of_mem _ hb, earlier.mono le⟩
    · exact ⟨a, atoms ▸ Array.mem_push_self, reads⟩

end Reachable

/-! ## Registries that tell ground atoms apart -/

/-- Ground atoms over the names `N` are refused as duplicates if they are registered and only then,
and any two that are not can be registered one after the other and are found. -/
structure TellsApart (r : Registry) (N : Set String) : Prop where
  /-- Duplicates are what is registered. -/
  refuses_iff : ∀ {g : GroundAtom} {isStatic : Bool}, r.vocabulary.Admits g → g.Over N →
    (r.Refuses g isStatic ↔ r.Registers g)
  /-- Different ground atoms may both be registered. -/
  exists_both : ∀ {g h : GroundAtom} {s t : Bool}, r.vocabulary.Admits g → r.vocabulary.Admits h →
    g.Over N → h.Over N → g ≠ h → ¬ r.Registers g → ¬ r.Registers h →
    ∃ a b r₁ r₂, (g.call s).perform.run r = (.ok (.inr a), r₁) ∧
      (h.call t).perform.run r₁ = (.ok (.inr b), r₂) ∧ r₂.Finds g ∧ r₂.Finds h

section Legible

variable (hv : v.Valid)

include hv

theorem refuses_iff_of_legible (hr : (ofVocabulary v).after cs = r) (legible : v.Legible N)
    (names : ∀ h, r.Registers h → h.Over N) (hg : v.Admits g) (hN : g.Over N) :
    r.Refuses g isStatic ↔ r.Registers g := by
  rw [refuses_iff_exists hv hr hg]
  constructor
  · rintro ⟨h, hh, same⟩
    rwa [← legible (hh.admits hv hr) hg (names h hh) hN same]
  · intro registered
    exact ⟨g, registered, rfl⟩

/-- Over legible ground atoms, registries tell them apart. -/
theorem tellsApart_of_legible (hr : (ofVocabulary v).after cs = r) (legible : v.Legible N)
    (names : ∀ h, r.Registers h → h.Over N) : r.TellsApart N := by
  have hvoc := vocabulary_after hv hr
  constructor
  case refuses_iff =>
    rw [hvoc]
    exact refuses_iff_of_legible hv hr legible names
  case exists_both =>
    rw [hvoc]
    intro g h s t hg hh hN hN' differ new new'
    obtain ⟨a, r₁, hrun, hr₁, gained⟩ := exists_run_of_not_refuses hv hr hg s
      (mt (refuses_iff_of_legible hv hr legible names hg hN).mp new)
    have names₁ : ∀ k, r₁.Registers k → k.Over N := by
      intro k hk
      rcases (gained k).mp hk with hk | rfl
      · exact names k hk
      · exact hN
    have new₁ : ¬ r₁.Registers h := by
      rw [gained h]
      rintro (old | rfl)
      · exact new' old
      · exact differ rfl
    obtain ⟨b, r₂, hrun', hr₂, gained'⟩ := exists_run_of_not_refuses hv hr₁ hh t
      (mt (refuses_iff_of_legible hv hr₁ legible names₁ hh hN').mp new₁)
    refine ⟨a, b, r₁, r₂, hrun, hrun', ?_, ?_⟩
    · exact Registers.finds hv hr₂ ((gained' g).mpr (.inl ((gained g).mpr (.inr rfl))))
    · exact Registers.finds hv hr₂ ((gained' h).mpr (.inr rfl))

omit hv in
theorem not_registers_ofVocabulary : ¬ (ofVocabulary v).Registers g := by
  rintro ⟨a, ha, -⟩
  have none : (ofVocabulary v).atoms = #[] := congrArg Instance.atoms toInstance_ofVocabulary
  rw [none] at ha
  cases Array.not_mem_empty a ha

/-- In a registry with one ground atom, all others of its name are refused. -/
theorem exists_refuses (hg : v.Admits g) (hh : v.Admits h) (same : g.name = h.name) :
    ∃ r, (ofVocabulary v).after [g.call false] = r ∧ (∀ k, r.Registers k ↔ k = g) ∧
      r.Refuses h false := by
  have start : (ofVocabulary v).after [] = ofVocabulary v := rfl
  have first : ¬ (ofVocabulary v).Refuses g false := by
    rw [refuses_iff_exists hv start hg]
    rintro ⟨k, hk, -⟩
    exact not_registers_ofVocabulary hk
  obtain ⟨a, r, -, hr, gained⟩ := exists_run_of_not_refuses hv start hg false first
  have only : ∀ k, r.Registers k ↔ k = g := fun k =>
    (gained k).trans (or_iff_right (not_registers_ofVocabulary))
  exact ⟨r, hr, only, (refuses_iff_exists hv hr hh).mpr ⟨g, (only g).mpr rfl, same⟩⟩

/-- Where registries tell ground atoms apart, these are legible. -/
theorem legible_of_tellsApart
    (apart : ∀ {cs r}, (ofVocabulary v).after cs = r → (∀ h, r.Registers h → h.Over N) →
      r.TellsApart N) : v.Legible N := by
  intro g h hg hh hN hN' same
  obtain ⟨r, hr, only, refused⟩ := exists_refuses hv hg hh same
  have tells := apart hr fun k hk => (only k).mp hk ▸ hN
  have registered := (tells.refuses_iff (vocabulary_after hv hr ▸ hh) hN').mp refused
  exact ((only h).mp registered).symm

end Legible

/-- **Duplicate atoms.** In every registry over a vocabulary, a ground atom is refused as a
duplicate exactly if a registered one has the same name, and is registered otherwise.

* What is refused is what is registered, and different ground atoms can both be registered, in all
  registries exactly if every predicate has one argument at most and none shadows another.
* For objects with names in `N` this is so exactly if no two ground atoms over `N` have one name,
  and it is if no predicate holds an opening parenthesis and no name in `N` a comma. -/
theorem perform_duplicate_iff (hv : v.Built) :
    (∀ {cs : List Registration} {r : Registry} {g : GroundAtom} {isStatic : Bool},
      (ofVocabulary v).after cs = r → v.Admits g →
        (r.Refuses g isStatic ↔ ∃ h, r.Registers h ∧ h.name = g.name) ∧
        (¬ r.Refuses g isStatic → ∃ a r', (g.call isStatic).perform.run r = (.ok (.inr a), r') ∧
          r'.Finds g)) ∧
    ((∀ {cs : List Registration} {r : Registry}, (ofVocabulary v).after cs = r →
        r.TellsApart Set.univ) ↔
      (∀ p ∈ v.predicates, p.arity ≤ 1) ∧
        ∀ p ∈ v.predicates, ∀ q ∈ v.predicates, ¬ Vocabulary.Shadows p q) ∧
    ∀ N : Set String,
      ((∀ {cs : List Registration} {r : Registry}, (ofVocabulary v).after cs = r →
        (∀ h, r.Registers h → h.Over N) → r.TellsApart N) ↔ v.Legible N) ∧
      ((∀ p ∈ v.predicates, '(' ∉ p.name.toList) → (∀ n ∈ N, ',' ∉ n.toList) → v.Legible N) := by
  refine ⟨fun hr hg => ⟨refuses_iff_exists hv.valid hr hg, fun free => ?_⟩, ?_,
    fun N => ⟨⟨fun apart => legible_of_tellsApart hv.valid apart, fun legible => ?_⟩,
      Vocabulary.legible_of_separators hv.valid⟩⟩
  · obtain ⟨a, r', hrun, hr', gained⟩ := exists_run_of_not_refuses hv.valid hr hg _ free
    exact ⟨a, r', hrun, Registers.finds hv.valid hr' ((gained _).mpr (.inr rfl))⟩
  · rw [← Vocabulary.legible_univ_iff hv.valid]
    constructor
    · intro apart
      exact legible_of_tellsApart hv.valid fun hr _ => apart hr
    · intro legible cs r hr
      exact tellsApart_of_legible hv.valid hr legible fun _ _ _ _ => trivial
  · intro cs r hr names
    exact tellsApart_of_legible hv.valid hr legible names

/-- Blocks without commas in their names are told apart. -/
theorem perform_duplicate_iff_blocks :
    let v : Vocabulary := ⟨0, #[⟨"on", 2, false, 0⟩, ⟨"handempty", 0, false, 1⟩], #[]⟩
    let N : Set String := {n | ',' ∉ n.toList}
    v.Built ∧ ∀ {cs : List Registration} {r : Registry}, (ofVocabulary v).after cs = r →
      (∀ h, r.Registers h → h.Over N) → r.TellsApart N := by
  intro v N
  have on : (Vocabulary.empty 0).addPredicate "on" 2 false =
      .ok (⟨"on", 2, false, 0⟩, ⟨0, #[⟨"on", 2, false, 0⟩], #[]⟩) := rfl
  have handempty : Vocabulary.addPredicate ⟨0, #[⟨"on", 2, false, 0⟩], #[]⟩ "handempty" 0 false =
      .ok (⟨"handempty", 0, false, 1⟩, v) := by decide +kernel
  have hv : v.Built := .addPredicate (.addPredicate (.empty 0) on) handempty
  obtain ⟨apart, legible⟩ := (perform_duplicate_iff hv).2.2 N
  exact ⟨hv, apart.mpr (legible (by decide +kernel) fun _ hn => hn)⟩

/-- A comma in the name of an object stands for one between objects: `on` over `a,b` and `c` is
registered, and then `on` over `a` and `b,c` is refused. -/
theorem refuses_unregistered :
    let v : Vocabulary := ⟨0, #[⟨"on", 2, false, 0⟩], #[]⟩
    let g : GroundAtom := ⟨"on", ["a,b", "c"]⟩
    let h : GroundAtom := ⟨"on", ["a", "b,c"]⟩
    let r := (ofVocabulary v).after [g.call false]
    v.Built ∧ v.Admits h ∧ r.Registers g ∧ ¬ r.Registers h ∧ r.Refuses h false := by
  intro v g h r
  have on : (Vocabulary.empty 0).addPredicate "on" 2 false = .ok (⟨"on", 2, false, 0⟩, v) := rfl
  have hv : v.Built := .addPredicate (.empty 0) on
  have hg : v.Admits g := ⟨⟨"on", 2, false, 0⟩, rfl, rfl⟩
  have hh : v.Admits h := ⟨⟨"on", 2, false, 0⟩, rfl, rfl⟩
  obtain ⟨_, rfl, only, refused⟩ := exists_refuses hv.valid hg hh (by decide +kernel)
  refine ⟨hv, hh, (only g).mpr rfl, ?_, refused⟩
  rw [only h]
  decide

end Registry

end DescLogic
