import DescLogic.Proofs.Factory.Stored
import DescLogic.Proofs.Term
/-!
# Stored elements written out

`Factory.Spells f h t` says that the element at `h`, with its operands written out down to the
vocabulary, is the term `t`. In a valid factory every stored element has exactly one such term, in
canonical form and over the vocabulary, and what is known of the element is what is known of its
term.

* `Valid.exists_spells`, `Spells.unique`: the term of a stored element.
* `Valid.summary_eq`, `Valid.canon_eq`, `Valid.fits`: what the store keeps beside an element is
  read off its term, which is canonical and fits the vocabulary.
* `Extends.spells`: terms stay what they are when the factory grows.
* `Valid.eq_of_text_eq`: elements whose terms have the same text are the same.
-/

namespace DescLogic.Factory

variable {c : Category} {f g : Factory} {h h' : Handle c} {t t' : Term c}

/-- The stored element at `h`, with its operands written out, is `t`. -/
inductive Spells (f : Factory) : {c : Category} → Handle c → Term c → Prop where
  | intro {c : Category} {h : Handle c} {o : Operator c} {hs : Args Handle o.signature}
      {s : Summary} {ts : Args Term o.signature} :
      f.get? h = some ⟨⟨o, hs⟩, s⟩ → hs.Rel (Spells f) ts → Spells f h (.mk o ts)

theorem Spells.stored (ht : f.Spells h t) : ∃ e, f.get? h = some e := by
  cases ht with
  | intro he _ => exact ⟨_, he⟩

/-- A handle is written out in one way. -/
theorem Spells.unique (ht : f.Spells h t) (ht' : f.Spells h t') : t = t' := by
  induction t using Term.induction with
  | mk o ts ih =>
    cases ht with
    | intro he hts =>
      cases ht' with
      | intro he' hts' =>
        rw [he] at he'
        cases he'
        have unique := hts.imp_of_all_right (S := fun h t => ∀ t', f.Spells h t' → t = t') ih
          fun ih ht t' ht' => ih ht ht'
        have same := unique.symm.trans hts' fun h h' => h _ h'
        rw [same.eq]

/-- Terms stay what they are when the factory grows. -/
theorem Extends.spells (hfg : f.Extends g) (ht : f.Spells h t) : g.Spells h t := by
  induction t using Term.induction with
  | mk o ts ih =>
    cases ht with
    | intro he hts => exact .intro (hfg.get? he) (hts.imp_of_all_right ih fun ih ht => ih ht)

/-- The node that an element was prepared from, with its operands known and in order. -/
theorem Valid.known_operands (hf : f.Valid) {e : Entry c} (he : f.get? h = some e) :
    ∃ m : Node Known c, m.args.checkNames f.vocabulary = .ok () ∧ m.checkPositions = .ok () ∧
      (m.args.All fun k => f.known k.1 = .ok k) ∧
      (m.Ordered fun x y => decide (x.2.text ≤ y.2.text)) ∧
      e = ⟨m.map Prod.fst, m.summary Prod.snd⟩ := by
  obtain ⟨n, hn⟩ := hf.prepared he
  obtain ⟨names, positions, ks, hks, rfl⟩ := prepare_eq_ok_iff.mp hn
  have same : n = (⟨n.operator, ks⟩ : Node Known c).map Prod.fst := by
    have fst : n.args.Rel (fun h k => h = k.1) ks :=
      hks.imp fun hk => (known_eq_ok_iff.mp hk).1.symm
    rw [Node.map, ← Args.rel_eq_iff.mp fst, Args.map_id]
  refine ⟨(⟨n.operator, ks⟩ : Node Known c).sorted fun x y => decide (x.2.text ≤ y.2.text),
    ?_, ?_, ?_, ?_, rfl⟩
  · rw [same] at names
    simpa using names
  · rw [same] at positions
    simpa using positions
  · rw [Node.all_args_sorted]
    refine hks.all_right fun {_ h k} hk => ?_
    rw [(known_eq_ok_iff.mp hk).1, hk]
  · refine Node.ordered_sorted fun x y => ?_
    simpa using String.le_total _ _

/-- Every stored element can be written out, and its summary is that of its term. -/
theorem Valid.exists_spells (hf : f.Valid) {e : Entry c} (he : f.get? h = some e) :
    ∃ t, f.Spells h t ∧ t.summary = e.summary := by
  generalize hk : e.summary.complexity = k
  induction k using Nat.strongRecOn generalizing c with
  | _ k ih =>
    obtain ⟨m, -, -, known, -, rfl⟩ := hf.known_operands he
    have spelled : m.args.All fun k => ∃ t, f.Spells k.1 t ∧ t.summary = k.2 := by
      refine (known.and (Node.complexity_lt Prod.snd m)).imp fun {_ x} hx => ?_
      obtain ⟨-, e', he', hs⟩ := known_eq_ok_iff.mp hx.1
      rw [← hs]
      refine ih _ ?_ he' rfl
      rw [← hk, hs]
      exact hx.2
    obtain ⟨ts, hts⟩ := Args.exists_rel spelled
    refine ⟨.mk m.operator ts, .intro he ?_, ?_⟩
    · exact Args.rel_map_left.mpr (hts.imp And.left)
    · have infos : m.args.map Prod.snd = ts.map Term.summary :=
        Args.rel_eq_iff.mp (hts.imp fun ht => ht.2.symm)
      calc (Term.ofNode ⟨m.operator, ts⟩).summary
          = ((⟨m.operator, ts⟩ : Node Term _).map Term.summary).summary fun s => s := by
            rw [Term.summary_ofNode, Node.summary_map]
        _ = (m.map Prod.snd).summary fun s => s :=
            congrArg (fun a => (Node.mk m.operator a).summary fun s => s) infos.symm
        _ = m.summary Prod.snd := Node.summary_map

/-- What is known of a stored element is what is known of its term. -/
theorem Valid.summary_eq (hf : f.Valid) {e : Entry c} (he : f.get? h = some e)
    (ht : f.Spells h t) : e.summary = t.summary := by
  obtain ⟨t', ht', hs⟩ := hf.exists_spells he
  rw [ht.unique ht', hs]

/-- Elements whose terms have the same text are the same. -/
theorem Valid.eq_of_text_eq (hf : f.Valid) (ht : f.Spells h t) (ht' : f.Spells h' t')
    (text : t.text = t'.text) : h = h' := by
  obtain ⟨e, he⟩ := ht.stored
  obtain ⟨e', he'⟩ := ht'.stored
  refine hf.eq_of_text he he' ?_
  rw [hf.summary_eq he ht, hf.summary_eq he' ht']
  exact text

/-- The names of a stored element are entries of the vocabulary, and its positions are in range. -/
theorem Valid.fits (hf : f.Valid) (ht : f.Spells h t) : t.Fits f.vocabulary := by
  induction t using Term.induction with
  | mk o ts ih =>
    cases ht with
    | intro he hts =>
      obtain ⟨⟨o', ks⟩, names, positions, -, -, hm⟩ := hf.known_operands he
      cases hm
      have hks := Args.rel_map_left.mp hts
      refine .mk ?_ ?_ ?_
      · rw [← hks.checkNames_eq]
        exact names
      · rw [← Node.checkPositions_eq hks]
        exact positions
      · refine (hts.imp_of_all_right (S := fun _ t => t.Fits f.vocabulary) ih ?_).all_right id
        exact fun ih ht => ih ht

/-- Terms of stored elements are canonical. -/
theorem Valid.canon_eq (hf : f.Valid) (ht : f.Spells h t) : t.canon = t := by
  induction t using Term.induction with
  | mk o ts ih =>
    cases ht with
    | intro he hts =>
      obtain ⟨⟨o', ks⟩, -, -, known, ordered, hm⟩ := hf.known_operands he
      cases hm
      have texts : ks.map (fun k => k.2.text) = (ts.map Term.text : Args Term.Texts _) := by
        refine Args.rel_eq_iff.mp ((Args.rel_map_left.mp hts).imp_of_all known ?_)
        intro _ k t hk ht
        obtain ⟨-, e, he, hs⟩ := known_eq_ok_iff.mp hk
        rw [← hs, hf.summary_eq he ht, Term.text]
      have operands : ts.map Term.canon = ts := by
        have same : ts.All fun t => t.canon = t :=
          (hts.imp_of_all_right (S := fun _ t => t.canon = t) ih fun ih ht => ih ht).all_right id
        rw [Args.map_congr same, Args.map_id]
      have sorted : (⟨o', ts⟩ : Node Term _).Ordered Term.textLe := by
        have h : (Node.map (fun k => k.2.text) ⟨o', ks⟩ : Node Term.Texts _).Ordered
            fun x y => decide (x ≤ y) := (Node.ordered_map _ _).mpr ordered
        rw [Node.map, texts] at h
        exact (Node.ordered_map (n := ⟨o', ts⟩) Term.text _).mp h
      calc (Term.ofNode ⟨o', ts⟩).canon
          = Term.ofNode ((⟨o', ts.map Term.canon⟩ : Node Term _).sorted Term.textLe) :=
            Term.canon_ofNode _
        _ = Term.ofNode ⟨o', ts⟩ := by rw [operands, sorted.sorted_eq]

end DescLogic.Factory
