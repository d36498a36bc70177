import DescLogic.Proofs.Problem
import DescLogic.Proofs.Procedure
import DescLogic.Registry
import Mathlib.Data.List.Induction
/-!
# Registries as they are filled

A registry keeps three things that could be computed from its objects and atoms: the places of their
names and the list of the static atoms. They agree with the objects and atoms whatever is registered
(`Registry.Coherent`), so a registration comes to the same as in the instance, where names are
searched for (`Coherent.addObject_toInstance`, `Coherent.addAtom_toInstance`), and what is true of
the instances that registrations build carries over.

* `Filed`: entries that are found by their names. `Filed.push`: one with a new name may be added.
* `Registry.built_iff_exists_after`: registries lead to the instances that registrations build.
* `Registry.moves_perform`: no call changes or removes an object or an atom.
* `Registry.aborts_perform`: a call that fails changes nothing.
* `Registry.valid_of_registrations`: what holds after any calls on a new registry.
-/

namespace DescLogic

open Procedure

/-! ## Entries that are found by name -/

/-- The entries are at their indices, and `places` leads from a name to the entry with that name. -/
structure Filed {α : Type} (entries : Array α) (name : α → String) (index : α → Nat)
    (places : Std.HashMap String Nat) : Prop where
  /-- An entry's index is its place. -/
  index_eq : ∀ {n : Nat} {a : α}, entries[n]? = some a → index a = n
  /-- A name leads to the place of the entry with that name. -/
  place_iff : ∀ {s : String} {n : Nat},
    places[s]? = some n ↔ ∃ a, entries[n]? = some a ∧ name a = s

namespace Filed

variable {α : Type} {entries : Array α} {name : α → String} {index : α → Nat}
  {places : Std.HashMap String Nat} {a b : α} {m n : Nat}

theorem empty : Filed (#[] : Array α) name index ∅ := by
  constructor <;> simp

/-- Entries are told apart by their names. -/
theorem eq_of_name_eq (h : Filed entries name index places) (hm : entries[m]? = some a)
    (hn : entries[n]? = some b) (same : name a = name b) : m = n := by
  have found := h.place_iff.mpr ⟨a, hm, same⟩
  rw [h.place_iff.mpr ⟨b, hn, rfl⟩] at found
  exact (Option.some.inj found).symm

/-- An entry with a new name may be appended. -/
theorem push (h : Filed entries name index places) (new : places[name a]? = none)
    (last : index a = entries.size) :
    Filed (entries.push a) name index (places.insert (name a) (index a)) where
  index_eq := by
    intro n b hb
    rw [Array.getElem?_push] at hb
    split at hb
    · cases hb
      omega
    · exact h.index_eq hb
  place_iff := by
    intro s n
    have old : ∀ {b : α}, entries[n]? = some b → name b ≠ name a := by
      intro b hb same
      rw [← same, h.place_iff.mpr ⟨b, hb, rfl⟩] at new
      cases new
    rw [Std.HashMap.getElem?_insert, last]
    by_cases same : name a = s
    · rw [if_pos (by simpa using same), Option.some.injEq]
      constructor
      · rintro rfl
        exact ⟨a, Array.getElem?_push_size, same⟩
      · rintro ⟨b, hb, rfl⟩
        rw [Array.getElem?_push] at hb
        split at hb
        · exact Eq.symm ‹_›
        · exact absurd same.symm (old hb)
    · rw [if_neg (by simpa using same), h.place_iff, Array.getElem?_push]
      constructor
      · rintro ⟨b, hb, rfl⟩
        obtain ⟨lt, -⟩ := Array.getElem?_eq_some_iff.mp hb
        exact ⟨b, by rw [if_neg (by omega), hb], rfl⟩
      · rintro ⟨b, hb, rfl⟩
        split at hb
        · cases hb
          exact absurd rfl same
        · exact ⟨b, hb, rfl⟩

/-- Where a name leads is where a search for it ends. -/
theorem findIdx? (h : Filed entries name index places) (s : String) :
    entries.findIdx? (fun a => name a == s) = places[s]? := by
  cases found : places[s]? with
  | none =>
    rw [Array.findIdx?_eq_none_iff]
    intro a ha
    obtain ⟨n, hn⟩ := Array.mem_iff_getElem?.mp ha
    refine beq_eq_false_iff_ne.mpr fun same => ?_
    rw [h.place_iff.mpr ⟨a, hn, same⟩] at found
    cases found
  | some n =>
    obtain ⟨a, ha, named⟩ := h.place_iff.mp found
    obtain ⟨lt, at_n⟩ := Array.getElem?_eq_some_iff.mp ha
    refine Array.findIdx?_eq_some_iff_getElem.mpr ⟨lt, by rw [at_n]; exact beq_iff_eq.mpr named, ?_⟩
    intro m before same
    have hm := Array.getElem?_eq_getElem (Nat.lt_trans before lt)
    have := h.eq_of_name_eq hm ha ((beq_iff_eq.mp same).trans named.symm)
    omega

/-- The indices of the entries, in order. -/
theorem map_index (h : Filed entries name index places) :
    entries.toList.map index = List.range entries.size := by
  refine List.ext_getElem (by simp) fun n hn _ => ?_
  rw [List.getElem_map, List.getElem_range]
  exact h.index_eq (by simp)

end Filed

/-! ## Calls -/

/-- The call that registers an atom, as a static one if `isStatic` says so. -/
def Registration.atomAs (isStatic : Bool) (predicate : String) (objects : List String) :
    Registration :=
  if isStatic then .staticAtom predicate objects else .atom predicate objects

theorem Registration.perform_atomAs {isStatic : Bool} {predicate : String}
    {objects : List String} :
    (atomAs isStatic predicate objects).perform =
      (do return .inr (← RegisterM.addAtomAs isStatic predicate objects)) := by
  cases isStatic <;> rfl

/-- A call registers an object or an atom. -/
theorem Registration.object_or_atomAs (c : Registration) :
    (∃ name, c = .object name) ∨
      ∃ isStatic predicate objects, c = atomAs isStatic predicate objects :=
  match c with
  | .object name => .inl ⟨name, rfl⟩
  | .atom predicate objects => .inr ⟨false, predicate, objects, rfl⟩
  | .staticAtom predicate objects => .inr ⟨true, predicate, objects, rfl⟩

namespace Registry

variable {v : Vocabulary} {r r' : Registry} {name : String}

/-! ## Registries and instances -/

/-- Names lead to the objects and to the atoms, and the static atoms are listed. -/
structure Coherent (r : Registry) : Prop where
  /-- Objects are found by their names. -/
  objects : Filed r.objects Object.name Object.index r.objectIndices
  /-- Atoms are found by their names. -/
  atoms : Filed r.atoms Atom.name Atom.index r.atomIndices
  /-- The static atoms are listed in order. -/
  statics : r.staticIndices.toList = r.toInstance.staticAtoms.map Atom.index

theorem Coherent.objectIndex?_toInstance (hr : r.Coherent) :
    r.toInstance.objectIndex? name = r.objectIndex? name := by
  rw [objectIndex?, ← hr.objects.findIdx?, Instance.objectIndex?, toInstance, Array.findIdx?_map]
  rfl

theorem Coherent.atomIndex?_toInstance (hr : r.Coherent) :
    r.toInstance.atomIndex? name = r.atomIndex? name :=
  hr.atoms.findIdx? name

/-- The list is that of the static atoms. -/
theorem Coherent.mem_staticIndices (hr : r.Coherent) {n : Nat} :
    n ∈ r.staticIndices ↔ ∃ a, r.atoms[n]? = some a ∧ a.isStatic = true := by
  rw [← Array.mem_toList_iff, hr.statics, List.mem_map]
  constructor
  · rintro ⟨a, ha, rfl⟩
    obtain ⟨listed, static⟩ := List.mem_filter.mp ha
    obtain ⟨n, hn⟩ := Array.mem_iff_getElem?.mp (Array.mem_toList_iff.mp listed)
    rw [hr.atoms.index_eq hn]
    exact ⟨a, hn, static⟩
  · rintro ⟨a, ha, static⟩
    have listed := Array.mem_toList_iff.mpr (Array.mem_of_getElem? ha)
    exact ⟨a, List.mem_filter.mpr ⟨listed, static⟩, hr.atoms.index_eq ha⟩

/-- The list is increasing. -/
theorem Coherent.pairwise_staticIndices (hr : r.Coherent) :
    r.staticIndices.toList.Pairwise (· < ·) := by
  have sub := (List.filter_sublist (p := Atom.isStatic) (l := r.atoms.toList)).map Atom.index
  rw [hr.atoms.map_index] at sub
  rw [hr.statics]
  exact List.pairwise_lt_range.sublist sub

/-- An object with a new name may be appended. -/
theorem Coherent.insertObject (hr : r.Coherent) (new : r.objectIndex? name = none) :
    (r.insertObject name).2.Coherent where
  objects := Filed.push hr.objects (a := (r.insertObject name).1) new rfl
  atoms := hr.atoms
  statics := hr.statics

/-- An atom with a new name may be appended. -/
theorem Coherent.insertAtom (hr : r.Coherent) (new : r.atomIndex? name = none) (predicate : Nat)
    (objects : List Nat) (isStatic : Bool) :
    (r.insertAtom name predicate objects isStatic).2.Coherent where
  objects := hr.objects
  atoms := Filed.push hr.atoms (a := (r.insertAtom name predicate objects isStatic).1) new rfl
  statics := by
    have old := hr.statics
    cases isStatic <;>
      simp [Registry.insertAtom, toInstance, Instance.staticAtoms, List.filter_append] at old ⊢ <;>
      exact old

theorem coherent_empty : (empty v).Coherent := ⟨.empty, .empty, rfl⟩

theorem toInstance_insertObject :
    (r.insertObject name).2.toInstance =
      { r.toInstance with objects := r.toInstance.objects.push name } := by
  simp [toInstance, Registry.insertObject]

theorem objectIndex?_insertObject {other : String} :
    (r.insertObject name).2.objectIndex? other =
      if name = other then some r.objects.size else r.objectIndex? other := by
  simp [objectIndex?, Registry.insertObject, Std.HashMap.getElem?_insert]

theorem toInstance_foldl_insertObject {names : List String} :
    (names.foldl (fun r name => (r.insertObject name).2) r).toInstance =
      { r.toInstance with objects := r.toInstance.objects ++ names.toArray } := by
  induction names generalizing r with
  | nil => simp
  | cons name names ih =>
    rw [List.foldl_cons, ih, toInstance_insertObject]
    simp

/-- Objects with new names may be appended one after the other. -/
theorem Coherent.foldl_insertObject (hr : r.Coherent) {names : List String}
    (new : ∀ name ∈ names, r.objectIndex? name = none) (distinct : names.Nodup) :
    (names.foldl (fun r name => (r.insertObject name).2) r).Coherent := by
  induction names generalizing r with
  | nil => exact hr
  | cons name names ih =>
    obtain ⟨other, distinct⟩ := List.nodup_cons.mp distinct
    refine ih (hr.insertObject (new name (List.mem_cons_self ..))) (fun name' h => ?_) distinct
    rw [objectIndex?_insertObject, if_neg (fun same : name = name' => other (same ▸ h))]
    exact new name' (List.mem_cons_of_mem _ h)

theorem ofVocabulary_eq_foldl :
    ofVocabulary v =
      (v.constants.toList.map Constant.name).foldl (fun r name => (r.insertObject name).2)
        (empty v) := by
  rw [List.foldl_map, Array.foldl_toList, ofVocabulary]

/-- The objects of a new registry are the constants. -/
theorem toInstance_ofVocabulary : (ofVocabulary v).toInstance = .ofVocabulary v := by
  rw [ofVocabulary_eq_foldl, toInstance_foldl_insertObject, ← Array.toList_map,
    Array.toArray_toList]
  simp [toInstance, empty, Instance.ofVocabulary]

theorem coherent_ofVocabulary (hv : v.Valid) : (ofVocabulary v).Coherent := by
  have distinct : (v.constants.toList.map Constant.name).Nodup := by
    refine List.pairwise_map.mpr (List.pairwise_iff_getElem.mpr fun x y hx hy lt same => ?_)
    have at_x : v.constants[x]? = some (v.constants.toList[x]) := by simp
    have at_y : v.constants[y]? = some (v.constants.toList[y]) := by simp
    have one := hv.constant_name (Array.mem_of_getElem? at_x) (Array.mem_of_getElem? at_y) same
    have := hv.constant_index at_x
    rw [one, hv.constant_index at_y] at this
    omega
  rw [ofVocabulary_eq_foldl]
  exact coherent_empty.foldl_insertObject (by simp [objectIndex?, empty]) distinct

/-! ## What stays -/

/-- The objects and the atoms of `r` are objects and atoms of `r'`, at the same places. -/
structure Extends (r r' : Registry) : Prop where
  /-- Both are over one vocabulary. -/
  vocabulary : r'.vocabulary = r.vocabulary
  /-- Objects stay. -/
  objects : ∀ {x : Nat} {o : Object}, r.objects[x]? = some o → r'.objects[x]? = some o
  /-- Atoms stay. -/
  atoms : ∀ {n : Nat} {a : Atom}, r.atoms[n]? = some a → r'.atoms[n]? = some a

instance : IsPreorder Registry Extends where
  refl _ := ⟨rfl, id, id⟩
  trans _ _ _ h h' :=
    ⟨h'.vocabulary.trans h.vocabulary, fun hx => h'.objects (h.objects hx),
      fun hn => h'.atoms (h.atoms hn)⟩

theorem getElem?_push_of_some {α : Type} {l : Array α} {a b : α} {n : Nat} (h : l[n]? = some a) :
    (l.push b)[n]? = some a := by
  obtain ⟨lt, -⟩ := Array.getElem?_eq_some_iff.mp h
  rw [Array.getElem?_push, if_neg (by omega), h]

theorem extends_insertObject : r.Extends (r.insertObject name).2 :=
  ⟨rfl, getElem?_push_of_some, id⟩

theorem extends_insertAtom {predicate : Nat} {objects : List Nat} {isStatic : Bool} :
    r.Extends (r.insertAtom name predicate objects isStatic).2 :=
  ⟨rfl, id, getElem?_push_of_some⟩

theorem extends_resolveObject : r.Extends (r.resolveObject name).2 := by
  unfold resolveObject
  split
  · exact refl_of Extends r
  · exact extends_insertObject

/-- Names go on leading to the objects that they led to. -/
theorem Extends.objectIndex? (h : r.Extends r') (hr : r.Coherent) (hr' : r'.Coherent) {x : Nat}
    (found : r.objectIndex? name = some x) : r'.objectIndex? name = some x := by
  obtain ⟨o, ho, named⟩ := hr.objects.place_iff.mp found
  exact hr'.objects.place_iff.mpr ⟨o, h.objects ho, named⟩

theorem moves_resolveObjects (names : List String) :
    Moves Extends (RegisterM.resolveObjects names) :=
  .mapM fun _ _ => extends_resolveObject

theorem moves_addObject : Moves Extends (RegisterM.addObject name) := by
  unfold RegisterM.addObject
  refine .bind .get fun r => ?_
  split
  · exact .throw
  · exact fun _ => extends_insertObject

theorem moves_addAtomAs {isStatic : Bool} {predicate : String} {objects : List String} :
    Moves Extends (RegisterM.addAtomAs isStatic predicate objects) := by
  unfold RegisterM.addAtomAs
  refine .bind .get fun r => .bind .lift fun p => ?_
  exact .bind (moves_resolveObjects objects) fun xs _ => extends_insertAtom

/-- A registration that fails changes nothing. -/
theorem aborts_addObject : Aborts Eq (RegisterM.addObject name) := by
  unfold RegisterM.addObject
  refine .bind .get fun r => ?_
  split
  · exact Moves.throw.aborts
  · exact Ensures.aborts succeeds_modifyGet

theorem aborts_addAtomAs {isStatic : Bool} {predicate : String} {objects : List String} :
    Aborts Eq (RegisterM.addAtomAs isStatic predicate objects) := by
  unfold RegisterM.addAtomAs
  refine .bind .get fun r => .bind .lift fun p => ?_
  -- From here on, where the registry changes, nothing fails.
  have resolved : Succeeds (RegisterM.resolveObjects objects) :=
    .mapM fun _ _ => succeeds_modifyGet
  exact Ensures.aborts (resolved.bind fun xs => succeeds_modifyGet)

/-! ## Running -/

theorem run_addObject :
    (RegisterM.addObject name).run r =
      if (r.objectIndex? name).isSome then (.error (.duplicateObject name), r)
      else (.ok (r.insertObject name).1, (r.insertObject name).2) := by
  unfold RegisterM.addObject
  rw [run_bind_ok run_get]
  split <;> rfl

/-- Registering an object comes to the same in the instance. -/
theorem Coherent.addObject_toInstance (hr : r.Coherent) (name : String) :
    r.toInstance.addObject name =
      ((RegisterM.addObject name).run r).1.map fun o =>
        (o.index, ((RegisterM.addObject name).run r).2.toInstance) := by
  rw [run_addObject, Instance.addObject, hr.objectIndex?_toInstance]
  cases r.objectIndex? name with
  | some x => rfl
  | none => simp [Except.map, toInstance, Registry.insertObject]

theorem Coherent.addObject (hr : r.Coherent) :
    ((RegisterM.addObject name).run r).2.Coherent := by
  rw [run_addObject]
  cases found : r.objectIndex? name with
  | some x => exact hr
  | none => exact hr.insertObject found

theorem Coherent.resolveObject (hr : r.Coherent) (name : String) :
    (r.resolveObject name).2.Coherent ∧
      r.toInstance.resolveObject name =
        ((r.resolveObject name).1, (r.resolveObject name).2.toInstance) ∧
      (r.resolveObject name).2.objectIndex? name = some (r.resolveObject name).1 ∧
      (r.resolveObject name).2.atoms = r.atoms ∧
      (r.resolveObject name).2.atomIndices = r.atomIndices := by
  unfold Registry.resolveObject Instance.resolveObject
  rw [hr.objectIndex?_toInstance]
  cases found : r.objectIndex? name with
  | some x => exact ⟨hr, rfl, found, rfl, rfl⟩
  | none =>
    refine ⟨hr.insertObject found, ?_, ?_, rfl, rfl⟩
    · rw [toInstance_insertObject]
      simp [toInstance, Registry.insertObject]
    · rw [objectIndex?_insertObject, if_pos rfl, Registry.insertObject]

/-- The names of an atom's objects are resolved to the objects with these names, and in the instance
to the same ones. -/
theorem Coherent.run_resolveObjects (hr : r.Coherent) (names : List String) :
    ∃ xs r₁, (RegisterM.resolveObjects names).run r = (.ok xs, r₁) ∧ r₁.Coherent ∧
      r.toInstance.resolveObjects names = (xs, r₁.toInstance) ∧
      List.Forall₂ (fun name x => r₁.objectIndex? name = some x) names xs ∧
      r₁.atoms = r.atoms ∧ r₁.atomIndices = r.atomIndices := by
  induction names generalizing r with
  | nil => exact ⟨[], r, rfl, hr, rfl, .nil, rfl, rfl⟩
  | cons name names ih =>
    obtain ⟨first, same, found, atoms, taken⟩ := hr.resolveObject name
    obtain ⟨xs, r₁, hrun, rest, same', found', atoms', taken'⟩ := ih first
    have later : (r.resolveObject name).2.Extends r₁ := (moves_resolveObjects names).rel hrun
    refine ⟨(r.resolveObject name).1 :: xs, r₁, ?_, rest, ?_, ?_, atoms'.trans atoms,
      taken'.trans taken⟩
    · unfold RegisterM.resolveObjects at hrun ⊢
      rw [List.mapM_cons, run_bind_ok run_modifyGet, run_bind_ok hrun]
      rfl
    · rw [Instance.resolveObjects, same]
      simp only [same']
    · exact .cons (later.objectIndex? first rest found) found'

theorem getElem?_eq_bind {α β : Type} {f : α → Option β} {l : List α} {l' : List β}
    (h : List.Forall₂ (fun a b => f a = some b) l l') {i : Nat} : l'[i]? = l[i]?.bind f := by
  induction h generalizing i with
  | nil => rfl
  | cons h _ ih =>
    cases i with
    | zero => exact h.symm
    | succ i => exact ih

section Atoms

variable {isStatic : Bool} {predicate : String} {names : List String} {a : Atom}

theorem checkAtom_eq_ok {p : Predicate} (h : r.checkAtom predicate names = .ok p) :
    r.vocabulary.predicate predicate = .ok p ∧ p.arity = names.length ∧
      r.atomIndex? (atomName predicate names) = none := by
  unfold checkAtom at h
  cases hp : r.vocabulary.predicate predicate with
  | error e =>
    rw [hp] at h
    cases h
  | ok p =>
    rw [hp] at h
    simp only [bind, Except.bind, pure, Except.pure, throw, throwThe, MonadExceptOf.throw] at h
    by_cases arity : p.arity = names.length
    · rw [if_neg (not_not_intro arity)] at h
      cases taken : r.atomIndex? (atomName predicate names) with
      | some n =>
        rw [taken] at h
        cases h
      | none =>
        rw [taken] at h
        cases h
        exact ⟨rfl, arity, rfl⟩
    · rw [if_pos arity] at h
      cases h

theorem run_addAtomAs_of_error {e : Error} (h : r.checkAtom predicate names = .error e) :
    (RegisterM.addAtomAs isStatic predicate names).run r = (.error e, r) := by
  unfold RegisterM.addAtomAs
  rw [run_bind_ok run_get, run_bind, run_lift, h]

theorem run_addAtomAs_of_ok {p : Predicate} {xs : List Nat} {r₁ : Registry}
    (h : r.checkAtom predicate names = .ok p)
    (hrun : (RegisterM.resolveObjects names).run r = (.ok xs, r₁)) :
    (RegisterM.addAtomAs isStatic predicate names).run r =
      (.ok (r₁.insertAtom (atomName predicate names) p.index xs (isStatic || p.isStatic)).1,
        (r₁.insertAtom (atomName predicate names) p.index xs (isStatic || p.isStatic)).2) := by
  unfold RegisterM.addAtomAs
  rw [run_bind_ok run_get, run_lift_bind_ok h, run_bind_ok hrun]
  rfl

/-- The instance makes the same checks. -/
theorem Coherent.addAtom_of_checkAtom (hr : r.Coherent) :
    r.toInstance.addAtom predicate names isStatic = (r.checkAtom predicate names).map fun p =>
      let (xs, i) := r.toInstance.resolveObjects names
      let a : Atom :=
        ⟨atomName predicate names, p.index, xs, isStatic || p.isStatic, i.atoms.size⟩
      (a, { i with atoms := i.atoms.push a }) := by
  unfold Instance.addAtom checkAtom
  show (r.vocabulary.predicate predicate >>= _) = _
  cases r.vocabulary.predicate predicate with
  | error e => rfl
  | ok p =>
    simp only [bind, Except.bind, pure, Except.pure, throw, throwThe, MonadExceptOf.throw,
      hr.atomIndex?_toInstance]
    split
    · rfl
    · split <;> rfl

/-- Registering an atom comes to the same in the instance. -/
theorem Coherent.addAtom_toInstance (hr : r.Coherent) (isStatic : Bool) (predicate : String)
    (names : List String) :
    r.toInstance.addAtom predicate names isStatic =
      ((RegisterM.addAtomAs isStatic predicate names).run r).1.map fun a =>
        (a, ((RegisterM.addAtomAs isStatic predicate names).run r).2.toInstance) := by
  rw [hr.addAtom_of_checkAtom]
  cases checked : r.checkAtom predicate names with
  | error e =>
    rw [run_addAtomAs_of_error checked]
    rfl
  | ok p =>
    obtain ⟨xs, r₁, hrun, -, same, -⟩ := hr.run_resolveObjects names
    rw [run_addAtomAs_of_ok checked hrun, same]
    rfl

theorem Coherent.addAtomAs (hr : r.Coherent) :
    ((RegisterM.addAtomAs isStatic predicate names).run r).2.Coherent := by
  cases checked : r.checkAtom predicate names with
  | error e =>
    rw [run_addAtomAs_of_error checked]
    exact hr
  | ok p =>
    obtain ⟨xs, r₁, hrun, hr₁, -, -, -, taken⟩ := hr.run_resolveObjects names
    obtain ⟨-, -, new⟩ := checkAtom_eq_ok checked
    rw [run_addAtomAs_of_ok checked hrun]
    refine hr₁.insertAtom ?_ _ _ _
    rwa [atomIndex?, taken]

/-- The atom is what was registered of the predicate over the named objects. -/
structure Records (r : Registry) (a : Atom) (isStatic : Bool) (predicate : String)
    (names : List String) : Prop where
  /-- The predicate applied to the names. -/
  name : a.name = atomName predicate names
  /-- The atom is static if it was registered so or its predicate is static. -/
  predicate : ∃ p, r.vocabulary.predicates[a.predicate]? = some p ∧ p.name = predicate ∧
    a.isStatic = (isStatic || p.isStatic)
  /-- The objects are those with the names. -/
  objects : List.Forall₂ (fun x name => r.objects[x]? = some ⟨name, x⟩) a.objects names
  /-- A name that is repeated gives one object. -/
  repeated : ∀ {i j : Nat}, names[i]? = names[j]? → a.objects[i]? = a.objects[j]?

theorem Records.mono (h : r.Records a isStatic predicate names) (le : r.Extends r') :
    r'.Records a isStatic predicate names :=
  { h with
    predicate := le.vocabulary ▸ h.predicate
    objects := h.objects.imp fun _ _ hx => le.objects hx }

/-- What is known of an atom that was registered. -/
theorem Coherent.addAtomAs_eq_ok (hr : r.Coherent) (hv : r.vocabulary.Valid)
    (h : (RegisterM.addAtomAs isStatic predicate names).run r = (.ok a, r')) :
    r'.atoms = r.atoms.push a ∧ r'.Records a isStatic predicate names := by
  cases checked : r.checkAtom predicate names with
  | error e =>
    rw [run_addAtomAs_of_error checked] at h
    cases h
  | ok p =>
    obtain ⟨xs, r₁, hrun, hr₁, -, found, atoms, -⟩ := hr.run_resolveObjects names
    obtain ⟨hp, -, -⟩ := checkAtom_eq_ok checked
    obtain ⟨listed, named⟩ := hv.predicate_eq_ok_iff.mp hp
    have moved : r.Extends r₁ := (moves_resolveObjects names).rel hrun
    rw [run_addAtomAs_of_ok checked hrun] at h
    cases h
    refine ⟨by rw [← atoms]; rfl, rfl, ⟨p, ?_, named, rfl⟩, ?_, fun {i j} same => ?_⟩
    · rw [extends_insertAtom.vocabulary, moved.vocabulary]
      exact hv.getElem?_index listed
    · refine List.Forall₂.flip (found.imp fun name x hx => ?_)
      obtain ⟨o, ho, rfl⟩ := hr₁.objects.place_iff.mp hx
      obtain rfl := hr₁.objects.index_eq ho
      exact ho
    · show xs[i]? = xs[j]?
      rw [getElem?_eq_bind found, getElem?_eq_bind found, same]

end Atoms

/-! ## Sequences of calls -/

/-- What the calls leave, whether they succeed or fail. -/
def after (r : Registry) (cs : List Registration) : Registry :=
  cs.foldl (fun r c => (c.perform.run r).2) r

variable {c : Registration} {cs : List Registration}

theorem after_append {ds : List Registration} : r.after (cs ++ ds) = (r.after cs).after ds :=
  List.foldl_append

theorem moves_perform : Moves Extends c.perform := by
  rcases c.object_or_atomAs with ⟨name, rfl⟩ | ⟨isStatic, predicate, objects, rfl⟩
  · exact .bind moves_addObject fun _ => .pure
  · rw [Registration.perform_atomAs]
    exact .bind moves_addAtomAs fun _ => .pure

theorem aborts_perform : Aborts Eq c.perform := by
  rcases c.object_or_atomAs with ⟨name, rfl⟩ | ⟨isStatic, predicate, objects, rfl⟩
  · exact aborts_addObject.map
  · rw [Registration.perform_atomAs]
    exact aborts_addAtomAs.map

theorem Coherent.perform (hr : r.Coherent) : (c.perform.run r).2.Coherent := by
  rcases c.object_or_atomAs with ⟨name, rfl⟩ | ⟨isStatic, predicate, objects, rfl⟩
  · rw [Registration.perform, run_map]
    exact hr.addObject
  · rw [Registration.perform_atomAs, run_map]
    exact hr.addAtomAs

/-- Registering an atom succeeds where it does in the instance, and leaves the same. -/
theorem Coherent.run_perform_atomAs (hr : r.Coherent) (isStatic : Bool) (predicate : String)
    (names : List String) :
    match r.toInstance.addAtom predicate names isStatic with
    | .ok (a, i) => ∃ r', (Registration.atomAs isStatic predicate names).perform.run r =
        (.ok (.inr a), r') ∧ r'.toInstance = i
    | .error e =>
      (Registration.atomAs isStatic predicate names).perform.run r = (.error e, r) := by
  rw [hr.addAtom_toInstance, Registration.perform_atomAs, run_map]
  rcases hrun : (RegisterM.addAtomAs isStatic predicate names).run r with ⟨e | a, r'⟩
  · rw [aborts_addAtomAs r e r' hrun]
    rfl
  · exact ⟨r', rfl, rfl⟩

/-- What a call leaves is what registrations build. -/
theorem Coherent.built_perform (hr : r.Coherent) (hi : Instance.Built v r.toInstance) :
    Instance.Built v (c.perform.run r).2.toInstance := by
  rcases c.object_or_atomAs with ⟨name, rfl⟩ | ⟨isStatic, predicate, names, rfl⟩
  · have same := hr.addObject_toInstance name
    rw [Registration.perform, run_map]
    rcases hrun : (RegisterM.addObject name).run r with ⟨e | o, r'⟩ <;> rw [hrun] at same
    · exact aborts_addObject r e r' hrun ▸ hi
    · exact .addObject hi same
  · have same := hr.run_perform_atomAs isStatic predicate names
    cases added : r.toInstance.addAtom predicate names isStatic with
    | error e =>
      rw [added] at same
      rwa [same]
    | ok ai =>
      rw [added] at same
      obtain ⟨r', hrun, left⟩ := same
      rw [hrun, left]
      exact .addAtom hi added

theorem extends_after : r.Extends (r.after cs) := by
  induction cs generalizing r with
  | nil => exact refl_of Extends r
  | cons c cs ih => exact trans_of Extends (moves_perform r) ih

/-- Calls on a new registry build an instance, and names lead to what it registers. -/
theorem coherent_after (cs : List Registration) (hv : v.Valid) :
    ((ofVocabulary v).after cs).Coherent ∧
      Instance.Built v ((ofVocabulary v).after cs).toInstance := by
  induction cs using List.reverseRecOn with
  | nil => exact ⟨coherent_ofVocabulary hv, toInstance_ofVocabulary ▸ .ofVocabulary⟩
  | append_singleton cs c ih =>
    rw [after_append]
    exact ⟨ih.1.perform, ih.1.built_perform ih.2⟩

/-- The instances that registrations build are those of the registries that calls leave. -/
theorem built_iff_exists_after (hv : v.Valid) {i : Instance} :
    Instance.Built v i ↔ ∃ cs, ((ofVocabulary v).after cs).toInstance = i := by
  constructor
  · intro hi
    induction hi with
    | ofVocabulary => exact ⟨[], toInstance_ofVocabulary⟩
    | @addObject i j name x _ added ih =>
      obtain ⟨cs, rfl⟩ := ih
      rw [(coherent_after cs hv).1.addObject_toInstance] at added
      refine ⟨cs ++ [.object name], ?_⟩
      rw [after_append]
      show ((Registration.object name).perform.run _).2.toInstance = j
      rw [Registration.perform, run_map]
      rcases hrun : (RegisterM.addObject name).run ((ofVocabulary v).after cs) with ⟨e | o, r'⟩ <;>
        rw [hrun] at added <;> cases added
      rfl
    | @addAtom i j predicate names isStatic a _ added ih =>
      obtain ⟨cs, rfl⟩ := ih
      have same := (coherent_after cs hv).1.run_perform_atomAs isStatic predicate names
      rw [added] at same
      obtain ⟨r', hrun, left⟩ := same
      refine ⟨cs ++ [.atomAs isStatic predicate names], ?_⟩
      rw [after_append]
      exact (congrArg toInstance (congrArg Prod.snd hrun)).trans left
  · rintro ⟨cs, rfl⟩
    exact (coherent_after cs hv).2

/-- What holds of the registries over a vocabulary. -/
structure Valid (v : Vocabulary) (r : Registry) : Prop where
  /-- The registry is over the vocabulary. -/
  vocabulary : r.vocabulary = v
  /-- An object's index is its place. -/
  object_index : ∀ {x : Nat} {o : Object}, r.objects[x]? = some o → o.index = x
  /-- Objects are told apart by their names. -/
  object_name : ∀ {x y : Nat} {o o' : Object},
    r.objects[x]? = some o → r.objects[y]? = some o' → o.name = o'.name → x = y
  /-- An object is found by its name. -/
  objectIndex?_iff : ∀ {name : String} {x : Nat},
    r.objectIndex? name = some x ↔ ∃ o, r.objects[x]? = some o ∧ o.name = name
  /-- The constants are the first objects. -/
  constant : ∀ {x : Nat} {k : Constant},
    v.constants[x]? = some k → r.objects[x]? = some ⟨k.name, x⟩
  /-- An atom's index is its place. -/
  atom_index : ∀ {n : Nat} {a : Atom}, r.atoms[n]? = some a → a.index = n
  /-- An atom is found by its name. -/
  atomIndex?_iff : ∀ {name : String} {n : Nat},
    r.atomIndex? name = some n ↔ ∃ a, r.atoms[n]? = some a ∧ a.name = name
  /-- An atom has as many objects as its predicate has arguments. -/
  atom_arity : ∀ {a : Atom}, a ∈ r.atoms →
    ∃ p, v.predicates[a.predicate]? = some p ∧ a.objects.length = p.arity
  /-- The objects of an atom are objects of the registry. -/
  atom_object : ∀ {a : Atom}, a ∈ r.atoms → ∀ x ∈ a.objects, x < r.objectCount
  /-- The static atoms are listed, and only they. -/
  mem_staticIndices : ∀ {n : Nat},
    n ∈ r.staticIndices ↔ ∃ a, r.atoms[n]? = some a ∧ a.isStatic = true
  /-- They are listed in increasing order. -/
  pairwise_staticIndices : r.staticIndices.toList.Pairwise (· < ·)

theorem Coherent.valid (hr : r.Coherent) (hi : r.toInstance.Valid v) : r.Valid v where
  vocabulary := hi.vocabulary
  object_index := hr.objects.index_eq
  object_name := hr.objects.eq_of_name_eq
  objectIndex?_iff := hr.objects.place_iff
  constant := by
    intro x k hk
    have named := hi.constant hk
    simp only [toInstance, Array.getElem?_map, Option.map_eq_some_iff] at named
    obtain ⟨o, ho, named⟩ := named
    rw [ho, ← named, ← hr.objects.index_eq ho]
  atom_index := hr.atoms.index_eq
  atomIndex?_iff := hr.atoms.place_iff
  atom_arity := hi.atom_arity
  atom_object := by
    intro a ha x hx
    have lt := hi.atom_object ha x hx
    rwa [Instance.objectCount, toInstance, Array.size_map] at lt
  mem_staticIndices := hr.mem_staticIndices
  pairwise_staticIndices := hr.pairwise_staticIndices

/-- An atom was there before a call, or the call registered it. -/
theorem Coherent.atoms_perform (hr : r.Coherent) (hv : r.vocabulary.Valid) {n : Nat} {a : Atom}
    (ha : (c.perform.run r).2.atoms[n]? = some a) :
    r.atoms[n]? = some a ∨
      ∃ isStatic predicate names, c = .atomAs isStatic predicate names ∧
        (c.perform.run r).1 = .ok (.inr a) ∧
        (c.perform.run r).2.Records a isStatic predicate names := by
  rcases c.object_or_atomAs with ⟨name, rfl⟩ | ⟨isStatic, predicate, names, rfl⟩
  · rw [Registration.perform, run_map, run_addObject] at ha
    left
    split at ha <;> exact ha
  · rw [Registration.perform_atomAs, run_map] at ha ⊢
    rcases hrun : (RegisterM.addAtomAs isStatic predicate names).run r with ⟨_ | b, r'⟩ <;>
      rw [hrun] at ha
    · rw [aborts_addAtomAs r _ r' hrun]
      exact .inl ha
    · obtain ⟨atoms, records⟩ := hr.addAtomAs_eq_ok hv hrun
      replace ha : (r.atoms.push b)[n]? = some a := atoms ▸ ha
      rw [Array.getElem?_push] at ha
      split at ha
      · cases ha
        exact .inr ⟨isStatic, predicate, names, rfl, rfl, records⟩
      · exact .inl ha

/-- Every atom was registered by one of the calls. -/
theorem exists_records (hv : v.Valid) {n : Nat} {a : Atom}
    (ha : ((ofVocabulary v).after cs).atoms[n]? = some a) :
    ∃ before isStatic predicate names rest,
      cs = before ++ .atomAs isStatic predicate names :: rest ∧
      ((Registration.atomAs isStatic predicate names).perform.run
        ((ofVocabulary v).after before)).1 = .ok (.inr a) ∧
      ((ofVocabulary v).after cs).Records a isStatic predicate names := by
  induction cs using List.reverseRecOn with
  | nil =>
    have none : (ofVocabulary v).toInstance.atoms[n]? = none := by
      rw [toInstance_ofVocabulary]
      rfl
    cases none.symm.trans ha
  | append_singleton cs c ih =>
    obtain ⟨hr, hi⟩ := coherent_after cs hv
    have hv' : ((ofVocabulary v).after cs).vocabulary.Valid := by
      rwa [show ((ofVocabulary v).after cs).vocabulary = v from (hi.valid hv).vocabulary]
    rw [after_append] at ha ⊢
    rcases hr.atoms_perform hv' ha with old | ⟨isStatic, predicate, names, rfl, new⟩
    · obtain ⟨before, isStatic, predicate, names, rest, rfl, added, records⟩ := ih old
      exact ⟨before, isStatic, predicate, names, rest ++ [c], by simp, added,
        records.mono (moves_perform _)⟩
    · exact ⟨cs, isStatic, predicate, names, [], rfl, new⟩

/-- Whatever calls are made on a new registry and whether they fail or not, it is valid; each atom
was registered by one of the calls and records what the call asked for; later calls keep the objects
and the atoms; and a call that fails changes nothing. -/
theorem valid_of_registrations (hv : v.Built) (hr : (ofVocabulary v).after cs = r) :
    r.Valid v ∧
      (∀ {n : Nat} {a : Atom}, r.atoms[n]? = some a →
        ∃ before isStatic predicate names rest,
          cs = before ++ .atomAs isStatic predicate names :: rest ∧
          ((Registration.atomAs isStatic predicate names).perform.run
            ((ofVocabulary v).after before)).1 = .ok (.inr a) ∧
          r.Records a isStatic predicate names) ∧
      (∀ ds, r.Extends (r.after ds)) ∧
      ∀ {c : Registration} {e : Error} {r' : Registry},
        c.perform.run r = (.error e, r') → r' = r := by
  subst hr
  obtain ⟨coherent, built⟩ := coherent_after cs hv.valid
  refine ⟨coherent.valid (built.valid hv.valid), exists_records hv.valid,
    fun ds => extends_after, fun failed => ?_⟩
  exact (aborts_perform _ _ _ failed).symm

/-- An atom with one object at both places, which is registered once and then refused. -/
theorem valid_of_registrations_on :
    let v : Vocabulary := ⟨0, #[⟨"on", 2, false, 0⟩], #[⟨"table", 0⟩]⟩
    let a : Atom := ⟨"on(a,a)", 0, [1, 1], false, 0⟩
    let c : Registration := .atomAs false "on" ["a", "a"]
    let r := (ofVocabulary v).after [c]
    v.Built ∧ r.Valid v ∧ r.atoms = #[a] ∧
      c.perform.run r = (.error (.duplicateAtom "on(a,a)"), r) := by
  intro v a c r
  have on : (Vocabulary.empty 0).addPredicate "on" 2 false =
      .ok (⟨"on", 2, false, 0⟩, ⟨0, #[⟨"on", 2, false, 0⟩], #[]⟩) := rfl
  have table : Vocabulary.addConstant ⟨0, #[⟨"on", 2, false, 0⟩], #[]⟩ "table" =
      .ok (⟨"table", 0⟩, v) := rfl
  have hv : v.Built := .addConstant (.addPredicate (.empty 0) on) table
  -- What the calls return and leave is computed in the instance, where nothing is hashed.
  let i : Instance := ⟨v, #["table", "a"], #[a]⟩
  have added : (Instance.ofVocabulary v).addAtom "on" ["a", "a"] false = .ok (a, i) := by
    decide +kernel
  have refused : i.addAtom "on" ["a", "a"] false = .error (.duplicateAtom "on(a,a)") := by
    decide +kernel
  have first := (coherent_ofVocabulary hv.valid).run_perform_atomAs false "on" ["a", "a"]
  rw [toInstance_ofVocabulary, added] at first
  obtain ⟨r', hrun, left⟩ := first
  have left' : r.toInstance = i := (congrArg toInstance (congrArg Prod.snd hrun)).trans left
  have second := (coherent_after [c] hv.valid).1.run_perform_atomAs false "on" ["a", "a"]
  rw [left', refused] at second
  obtain ⟨valid, -⟩ := valid_of_registrations (r := r) hv rfl
  exact ⟨hv, valid, congrArg Instance.atoms left', second⟩

end Registry

end DescLogic
