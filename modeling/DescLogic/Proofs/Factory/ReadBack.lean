import DescLogic.Proofs.Expression.OfTerm
import DescLogic.Proofs.Factory.Description
/-!
# Reading representations back

The text of a stored element is read back to the element, and reading it stores nothing: all parts
of the element are in the store already, in the order in which they are printed.

* `Formed.make_eq`: forming a node whose canonical text is that of a term that was formed gives the
  handle of that term and stores nothing.
* `Formed.exchange`: a term is formed together with all terms that exchanging operands leads to.
* `Formed.ofExpression_eq`: reading what was formed leaves the factory as it is.
* `ofText_text`: what was read from a text is read from its own text again.
-/

namespace DescLogic

open Procedure

namespace Factory

variable {c : Category} {v : Vocabulary} {f g : Factory} {h : Handle c} {t u : Term c}
  {e : Expression} {text : String}

/-- The operands of a term that was formed were formed too. -/
theorem Formed.operands {o : Operator c} {ts : Args Term o.signature}
    (ht : Formed v (.mk o ts) g h) : ∃ hs, ts.Rel (fun t x => Formed v t g x) hs := by
  obtain ⟨f, hs, f', -, hts, made, calls⟩ := formed_mk.mp ht
  exact ⟨hs, hts.imp fun ht => ht.calls ((calls_make made).trans calls)⟩

/-- The text of the element that a handle leads to is the canonical text of the term. -/
theorem Formed.exists_entry (ht : Formed v t g h) :
    ∃ e, g.get? h = some e ∧ e.summary.text = t.canonText := by
  obtain ⟨hg, -, t', spelled, text⟩ := ht.spells
  obtain ⟨e, he⟩ := spelled.stored
  refine ⟨e, he, ?_⟩
  rw [hg.valid.summary_eq he spelled]
  exact text

/-- **Forming what is there stores nothing.** A node over operands that were formed is found if its
canonical text is that of a term that was formed. -/
theorem Formed.make_eq {n : Node Term c} {m : Node Handle c} (ht : Formed v t g h)
    (hn : n.Rel (fun u x => Formed v u g x) m) (names : n.args.checkNames v = .ok ())
    (positions : n.checkPositions = .ok ()) (text : (Term.ofNode n).canonText = t.canonText) :
    (BuildM.make m).run g = (.ok h, g) ∧ Formed v (Term.ofNode n) g h := by
  obtain ⟨hg, -⟩ := ht.spells
  cases hn with
  | @intro o us hs hus =>
    obtain ⟨h', g', made, formed⟩ := exists_formed_mk hg hus names positions
    obtain ⟨prepared, -, inserted⟩ := make_eq_ok made
    have found : g.find? c prepared.summary.text = some h := by
      obtain ⟨stored, hstored, same⟩ := hg.valid.get?_insert prepared
      obtain ⟨e', he', text'⟩ := formed.exists_entry
      rw [inserted, he'] at hstored
      cases hstored
      obtain ⟨e, he, htext⟩ := ht.exists_entry
      refine hg.valid.find?_eq_some_iff.mpr ⟨e, he, ?_⟩
      rw [htext, ← text, ← same]
      exact text'.symm
    rw [Factory.insert, found] at inserted
    cases inserted
    exact ⟨made, formed⟩

/-- A term is formed together with the terms that exchanging operands leads to. -/
theorem Formed.exchange (ht : Formed v t g h) (hu : t.Exchange u) : Formed v u g h := by
  refine (hu.induction (P := fun {c} t u => t.canonText = u.canonText ∧
    ∀ {h : Handle c}, Formed v t g h → Formed v u g h) ?_ ?_ ?_).2 ht
  · intro c o ts us rel
    have text : (Term.mk o us).canonText = (Term.mk o ts).canonText := by
      have same : ts.map Term.canonText = (us.map Term.canonText : Args Term.Texts _) :=
        Args.rel_eq_iff.mp (rel.imp And.left)
      show (Term.ofNode ⟨o, us⟩).canonText = (Term.ofNode ⟨o, ts⟩).canonText
      rw [Term.canonText_ofNode, Term.canonText_ofNode, Node.map, Node.map, same]
    refine ⟨text.symm, fun {h} ht => ?_⟩
    obtain ⟨hs, hts⟩ := ht.operands
    have hus : us.Rel (fun u x => Formed v u g x) hs := rel.symm.trans hts fun hu ht => hu.2 ht
    obtain ⟨names, positions, -⟩ := Term.fits_ofNode (n := ⟨o, ts⟩).mp ht.spells.2.1
    exact (ht.make_eq (n := ⟨o, us⟩) (.intro hus) (rel.checkNames_eq ▸ names)
      (Node.checkPositions_eq rel ▸ positions) text).2
  · rintro c ⟨o, ts⟩
    have text := (Term.Exchange.swap ⟨o, ts⟩).canonText_eq
    refine ⟨text, fun {h} ht => ?_⟩
    obtain ⟨hs, hts⟩ := ht.operands
    obtain ⟨names, positions, -⟩ := Term.fits_ofNode (n := ⟨o, ts⟩).mp ht.spells.2.1
    exact (ht.make_eq (Node.Rel.intro hts).swap (by simpa using names) (by simpa using positions)
      text.symm).2
  · intro c t u w h h'
    exact ⟨h.1.trans h'.1, fun ht => h'.2 (h.2 ht)⟩

/-- Reading what was formed leaves the factory as it is. -/
theorem Formed.ofExpression_eq (hv : v.Valid) (ht : Formed v t g h) (he : e.Describes v t) :
    (BuildM.ofExpression c e).run g = (.ok h, g) := by
  obtain ⟨hg, -⟩ := ht.spells
  induction he using Expression.Describes.rec
    (motive_2 := fun {ps} es ts _ => ∀ (head : String) (hs : Args Handle ps),
      ts.Rel (fun t x => Formed v t g x) hs →
        (BuildM.ofArguments head ps es).run g = (.ok hs, g)) with
  | @node c o es ts hts range ih =>
    obtain ⟨hs, rel⟩ := ht.operands
    have names := hts.checkNames_eq hv
    have positions := Node.checkPositions_eq_ok_iff.mpr range
    rw [BuildM.ofExpression, hts.ofHead_eq, run_bind_ok run_lift, run_bind_ok (ih o.keyword hs rel)]
    exact (ht.make_eq (.intro rel) names positions rfl).1
  | nil =>
    rename_i rel
    cases rel
    rw [BuildM.ofArguments, run_pure]
  | @predicate ps es ts p hp _ ih =>
    rename_i head _ rel
    cases rel with
    | predicate _ rel => exact run_ofArguments_predicate hv hg hp (ih head _ rel)
  | @constant ps es ts k hk _ ih =>
    rename_i head _ rel
    cases rel with
    | constant _ rel => exact run_ofArguments_constant hv hg hk (ih head _ rel)
  | @position ps es ts s i hi _ ih =>
    rename_i head _ rel
    cases rel with
    | position _ rel => exact run_ofArguments_position hi (ih head _ rel)
  | @element ps d e es t ts _ _ ih ih' =>
    rename_i head _ rel
    cases rel with
    | element ht rel => exact run_ofArguments_element (ih ht) (ih' head _ rel)

/-- **Representations are read back.** Reading any text in a reachable factory gives a handle such
that the text of the element there is read to the same handle again, and this leaves the factory as
it is. -/
theorem ofText_text (hv : v.Built) (hf : Reachable v f)
    (hrun : (BuildM.ofText c text).run f = (.ok h, g)) :
    ∃ e, g.get? h = some e ∧ (BuildM.ofText c e.summary.text).run g = (.ok h, g) := by
  obtain ⟨e, he, hrun⟩ := run_lift_bind_eq_ok hrun
  obtain ⟨t, ht, formed⟩ := describes_of_ofExpression hv.valid e hf hrun
  obtain ⟨stored, hstored, hstoredText⟩ := formed.exists_entry
  refine ⟨stored, hstored, ?_⟩
  -- The text printed is that of the canonical term, whose expression describes a term that
  -- exchanging operands leads to: the one that was formed, up to exchange.
  obtain ⟨described, depth, legible⟩ := ht.expression
  have exchange := t.exchange_canon.expression
  obtain ⟨u, hu, exchange'⟩ := exchange.describes described
  have parsed : Expression.parse stored.summary.text = .ok t.canon.expression := by
    rw [hstoredText, ← Term.text_canon, ← Term.render_expression]
    refine Expression.parse_render (exchange.legible (legible (Expression.legible_of_parse he))) ?_
    rw [← exchange.depth_eq, depth]
    exact Expression.depth_le_of_parse he
  rw [BuildM.ofText, run_lift_bind_ok parsed]
  exact (formed.exchange exchange').ofExpression_eq hv.valid hu

/-- The operands of a conjunction are read back in the order in which they are printed. -/
theorem ofText_text_and :
    let v : Vocabulary := .empty 0
    ∃ h g, (BuildM.ofText .concept "c_and(c_top,c_bot)").run (empty v) = (.ok h, g) ∧
      (BuildM.ofText .concept "c_and(c_bot,c_top)").run g = (.ok h, g) := by
  intro v
  have hv : v.Built := .empty 0
  let t : Term .concept := .mk .andConcept
    (.element (.mk .top .nil) (.element (.mk .bot .nil) .nil))
  have described : (Expression.node "c_and" [.leaf "c_top", .leaf "c_bot"]).Describes v t :=
    .node (o := .andConcept) (.element (.node (o := .top) .nil trivial)
      (.element (.node (o := .bot) .nil trivial) .nil)) trivial
  have parsed : Expression.parse "c_and(c_top,c_bot)" =
      .ok (.node "c_and" [.leaf "c_top", .leaf "c_bot"]) := by
    have lexed : Token.lexFrom 0 "c_and(c_top,c_bot)".toList =
        .ok [⟨.identifier "c_and", 0⟩, ⟨.opening, 5⟩, ⟨.identifier "c_top", 6⟩, ⟨.comma, 11⟩,
          ⟨.identifier "c_bot", 12⟩, ⟨.closing, 17⟩] := by
      simp [Token.lexFrom, Token.isBlank, Token.isNameStart, Token.isNamePart]
    rw [Expression.parse, Token.lex, lexed]
    rfl
  obtain ⟨h, g, read, formed⟩ := exists_ofExpression hv.valid described (f := empty v) .refl
  have hrun : (BuildM.ofText .concept "c_and(c_top,c_bot)").run (empty v) = (.ok h, g) := by
    rw [BuildM.ofText, run_lift_bind_ok parsed, read]
  obtain ⟨e, he, again⟩ := ofText_text hv .refl hrun
  obtain ⟨e', he', text⟩ := formed.exists_entry
  rw [he] at he'
  cases he'
  have canonical : t.canonText = "c_and(c_bot,c_top)" := by decide +kernel
  rw [text, canonical] at again
  exact ⟨h, g, hrun, again⟩

end Factory

end DescLogic
