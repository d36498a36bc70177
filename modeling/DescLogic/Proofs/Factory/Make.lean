import DescLogic.Factory.Description
import DescLogic.Proofs.Procedure
import DescLogic.Proofs.Factory.Spelled
/-!
# Forming elements

What a construction stores is prepared, whether it succeeds or not, so forming a node lets a factory
grow (`moves_make`). Reading a description leads wherever forming nodes one after the other leads
(`moves_ofExpression`, `moves_ofText`).

* `Valid.exists_make`: a node over stored elements whose names and positions fit is formed.
* `Valid.spells_make`: the handle of a node leads to the element whose text is that of the node's
  canonical form.
-/

namespace DescLogic

open Procedure Factory

variable {c : Category} {f g : Factory}

theorem BuildM.run_make {n : Node Handle c} :
    (BuildM.make n).run f =
      match f.prepare n with
      | .ok e => (.ok (f.insert e).1, (f.insert e).2)
      | .error err => (.error err, f) := by
  unfold BuildM.make
  rw [run_bind_ok run_get, run_bind, run_lift]
  cases f.prepare n <;> rfl

namespace Factory

/-! ## Growth -/

theorem moves_make (n : Node Handle c) : Moves Grows (BuildM.make n) := by
  intro f
  rw [BuildM.run_make]
  cases h : f.prepare n with
  | error err => exact .refl f
  | ok e => exact Relation.ReflTransGen.single (.intro h)

section Description

variable {R : Factory → Factory → Prop} [IsPreorder Factory R]

/-- Reading arguments leads where reading the elements among them leads. -/
theorem moves_ofArguments_of_elements {head : String} :
    {ps : List Parameter} → {es : List Expression} →
    (∀ {i : Nat} {x : Expression} {d : Category}, es[i]? = some x → ps[i]? = some (.element d) →
      Moves R (BuildM.ofExpression d x)) → Moves R (BuildM.ofArguments head ps es)
  | [], _, _ => by
    rw [BuildM.ofArguments]
    exact .pure
  | p :: ps, [], _ => by
    rw [BuildM.ofArguments]
    exact .throw
    exact List.cons_ne_nil p ps
  | .predicate :: ps, e :: es, elements => by
    rw [BuildM.ofArguments]
    refine .bind .get fun f => ?_
    refine .bind .lift fun name => ?_
    refine .bind .lift fun p => ?_
    refine .bind (moves_ofArguments_of_elements fun {i} => elements (i := i + 1)) fun hs => ?_
    exact .pure
  | .constant :: ps, e :: es, elements => by
    rw [BuildM.ofArguments]
    refine .bind .get fun f => ?_
    refine .bind .lift fun name => ?_
    refine .bind .lift fun k => ?_
    refine .bind (moves_ofArguments_of_elements fun {i} => elements (i := i + 1)) fun hs => ?_
    exact .pure
  | .position :: ps, e :: es, elements => by
    rw [BuildM.ofArguments]
    refine .bind .lift fun i => ?_
    refine .bind (moves_ofArguments_of_elements fun {i} => elements (i := i + 1)) fun hs => ?_
    exact .pure
  | .element c :: ps, e :: es, elements => by
    rw [BuildM.ofArguments]
    refine .bind (elements (i := 0) rfl rfl) fun x => ?_
    refine .bind (moves_ofArguments_of_elements fun {i} => elements (i := i + 1)) fun hs => ?_
    exact .pure

theorem moves_ofExpression (make : ∀ {c : Category} (n : Node Handle c), Moves R (BuildM.make n)) :
    (c : Category) → (e : Expression) → Moves R (BuildM.ofExpression c e)
  | c, .node head args => by
    rw [BuildM.ofExpression]
    refine .bind .lift fun o => ?_
    refine .bind (moves_ofArguments_of_elements fun {_ x d} hx _ => ?_) fun hs => make _
    have smaller := List.sizeOf_lt_of_mem (List.mem_of_getElem? hx)
    exact moves_ofExpression make d x

theorem moves_ofArguments (make : ∀ {c : Category} (n : Node Handle c), Moves R (BuildM.make n))
    (head : String) (ps : List Parameter) (es : List Expression) :
    Moves R (BuildM.ofArguments head ps es) :=
  moves_ofArguments_of_elements fun _ _ => moves_ofExpression make _ _

theorem moves_ofText (make : ∀ {c : Category} (n : Node Handle c), Moves R (BuildM.make n))
    (c : Category) (text : String) : Moves R (BuildM.ofText c text) := by
  unfold BuildM.ofText
  exact .bind .lift fun e => moves_ofExpression make c e

end Description

/-! ## Nodes over stored elements -/

section Make

variable {n : Node Handle c} {ts : Args Term n.operator.signature} {h : Handle c}

/-- What is known of the entry of a node is what is known of its term, with the operands in
order. -/
theorem Valid.summary_prepare (hf : f.Valid) (hts : n.args.Rel f.Spells ts) {e : Entry c}
    (hn : f.prepare n = .ok e) :
    e.summary = (Term.ofNode ((⟨n.operator, ts⟩ : Node Term c).sorted Term.textLe)).summary := by
  obtain ⟨-, -, ks, hks, rfl⟩ := prepare_eq_ok_iff.mp hn
  have known : ks.Rel (fun k t => k.2 = t.summary) ts := by
    refine hks.symm.trans hts fun {_ k h t} hk ht => ?_
    obtain ⟨-, e, he, hs⟩ := known_eq_ok_iff.mp hk
    rw [← hs, hf.summary_eq he ht]
  have infos : (⟨n.operator, ks⟩ : Node Known c).map Prod.snd =
      (⟨n.operator, ts⟩ : Node Term c).map Term.summary :=
    congrArg (Node.mk n.operator) (Args.rel_eq_iff.mp known)
  have ordered := Node.summary_sorted_map (n := ⟨n.operator, ks⟩) Prod.snd
    (fun x y => decide (x.text ≤ y.text)) fun s => s
  rw [infos, Node.summary_sorted_map] at ordered
  rw [Term.summary_ofNode]
  exact ordered.symm

/-- A node over stored elements is formed if its names and positions fit. -/
theorem exists_make (hts : n.args.Rel f.Spells ts)
    (names : n.args.checkNames f.vocabulary = .ok ()) (positions : n.checkPositions = .ok ()) :
    ∃ h g, (BuildM.make n).run f = (.ok h, g) := by
  have stored : n.args.All fun h => ∃ k, f.known h = .ok k := by
    refine hts.all_left fun {_ h t} ht => ?_
    obtain ⟨e, he⟩ := ht.stored
    exact ⟨(h, e.summary), known_eq_ok_iff.mpr ⟨rfl, e, he, rfl⟩⟩
  obtain ⟨ks, hks⟩ := Args.exists_rel stored
  have prepared := prepare_eq_ok_iff.mpr ⟨names, positions, ks, hks, rfl⟩
  rw [BuildM.run_make, prepared]
  exact ⟨_, _, rfl⟩

theorem make_eq_ok (hn : (BuildM.make n).run f = (.ok h, g)) :
    ∃ e, f.prepare n = .ok e ∧ f.insert e = (h, g) := by
  rw [BuildM.run_make] at hn
  cases he : f.prepare n with
  | error err =>
    rw [he] at hn
    cases hn
  | ok e =>
    rw [he] at hn
    cases hn
    exact ⟨e, rfl, rfl⟩

/-- A node that is refused was not prepared. -/
theorem make_eq_error {err : Error} (hn : (BuildM.make n).run f = (.error err, g)) :
    f.prepare n = .error err ∧ g = f := by
  rw [BuildM.run_make] at hn
  cases he : f.prepare n with
  | error err' =>
    rw [he] at hn
    cases hn
    exact ⟨rfl, rfl⟩
  | ok e =>
    rw [he] at hn
    cases hn

theorem grows_make (hn : (BuildM.make n).run f = (.ok h, g)) : f.Grows g := (moves_make n).rel hn

/-- The handle of a node leads to the element whose text is that of the node's term in canonical
form. -/
theorem Valid.spells_make (hf : f.Valid) (hts : n.args.Rel f.Spells ts)
    (hn : (BuildM.make n).run f = (.ok h, g)) :
    ∃ t, g.Spells h t ∧ t.text = (Term.ofNode (⟨n.operator, ts⟩ : Node Term c)).canonText := by
  obtain ⟨e, he, hi⟩ := make_eq_ok hn
  have hg : g.Valid := (grows_make hn).valid hf
  obtain ⟨e', he', text⟩ := hf.get?_insert e
  rw [hi] at he'
  obtain ⟨t, ht, hs⟩ := hg.exists_spells he'
  refine ⟨t, ht, ?_⟩
  have canonical : ts.map Term.canon = ts := by
    have same : ts.All fun t => t.canon = t := hts.all_right fun ht => hf.canon_eq ht
    rw [Args.map_congr same, Args.map_id]
  rw [← Term.text_canon, Term.canon_ofNode, Node.map, canonical, Term.text, Term.text, hs, text,
    hf.summary_prepare hts he]

end Make

/-! ## The first element -/

theorem insert_empty {v : Vocabulary} {e : Entry c} :
    (empty v).insert e = (⟨0⟩, (empty v).push e) := by
  unfold Factory.insert
  simp only [find?_empty]
  cases c <;> rfl

theorem run_make_empty {v : Vocabulary} {n : Node Handle c} {e : Entry c}
    (hn : (empty v).prepare n = .ok e) :
    (BuildM.make n).run (empty v) = (.ok ⟨0⟩, (empty v).push e) := by
  rw [BuildM.run_make, hn]
  simp only [insert_empty]

/-- The first element formed is at the first handle. -/
theorem get?_make_empty {v : Vocabulary} {n : Node Handle c} {e : Entry c}
    (hn : (empty v).prepare n = .ok e) :
    ((BuildM.make n).run (empty v)).2.get? ⟨0⟩ = some e := by
  simp only [run_make_empty hn, get?_push_self]
  cases c <;> rfl

end Factory

end DescLogic
