import PhpFlow.Proofs.SyntaxErrors

/-!
# What building a program comes to

What is built lies where it was read: if every concrete node lies in the range of the one around it, then so
does every node of the tree that comes out. Where nothing comes out, a part was missing, or one of four sorts
of nodes is to blame.
-/
namespace PhpFlow

open Relation (ReflTransGen)

section Ranges

/-- Every node lies in the range of the node around it. -/
inductive Concrete.Spans : Concrete → Prop where
  | node {c : Concrete} (hrange : ∀ d ∈ c.children, c.start ≤ d.start ∧ d.stop ≤ c.stop)
      (hchildren : ∀ d ∈ c.children, Spans d) : Spans c

theorem Concrete.mem_readChildren {src : SourceText} {doc : Option String} {cs : List Concrete} {r : Reading}
    (h : r ∈ readChildren src doc cs) : ∃ d ∈ cs, ∃ doc, r = d.read src doc := by
  induction cs generalizing doc with
  | nil => cases h
  | cons c cs ih =>
    rw [readChildren] at h
    rcases List.mem_cons.mp h with rfl | h
    · exact ⟨c, List.mem_cons_self, doc, rfl⟩
    · obtain ⟨d, hd, hr⟩ := ih h
      exact ⟨d, List.mem_cons_of_mem c hd, hr⟩

theorem Concrete.mem_children_read {src : SourceText} {doc : Option String} {c : Concrete} {r : Reading}
    (h : r ∈ (c.read src doc).children) : ∃ d ∈ c.children, ∃ doc, r = d.read src doc := by
  obtain ⟨type, start, stop, named, missing, field, children⟩ := c
  exact mem_readChildren h

theorem Concrete.range_read (src : SourceText) (doc : Option String) (c : Concrete) :
    (c.read src doc).range = src.range c.start c.stop := by
  cases c
  rfl

theorem Concrete.Spans.read {c : Concrete} (h : c.Spans) (src : SourceText) (doc : Option String) :
    (c.read src doc).Spans := by
  have hstep : ∀ {d : Concrete} {doc : Option String}, d.Spans → ∀ r ∈ (d.read src doc).children,
      r.range.Within (d.read src doc).range ∧ ∃ (e : Concrete) (doc : Option String), r = e.read src doc ∧ e.Spans := by
    rintro d doc ⟨hrange, hchildren⟩ r hr
    obtain ⟨e, he, doc, rfl⟩ := mem_children_read hr
    rw [range_read, range_read]
    exact ⟨hrange e he, e, doc, rfl, hchildren e he⟩
  have hbelow : ∀ n, Reading.Below (c.read src doc) n →
      ∃ (d : Concrete) (doc : Option String), n = d.read src doc ∧ d.Spans := by
    intro n hn
    induction hn with
    | child hn => exact (hstep h _ hn).2
    | deeper _ hn ih =>
      obtain ⟨d, doc, rfl, hd⟩ := ih
      exact (hstep hd _ hn).2
  rintro n (rfl | hn) r hr
  · exact (hstep h r hr).1
  · obtain ⟨d, doc, rfl, hd⟩ := hbelow n hn
    exact (hstep hd r hr).1

theorem Reading.fits_of_spans (t : Taken) (h : t.node.Built) (hr : t.Reads) (hspans : t.node.Spans) : t.Fits := by
  induction hn : sizeOf t.node using Nat.strongRecOn generalizing t with
  | _ n ih =>
    subst hn
    obtain ⟨o, -, hfits, ⟨-, text, rfl⟩ | ⟨-, hshows⟩⟩ := h.shows hr
    · exact hfits.mpr (.of_parts rfl (by simp [Outline.parts]))
    · have htakes : ∀ u ∈ t.takes, u.Fits := fun u hu =>
        have hu' := hshows.below u hu
        ih _ hu'.sizeOf_lt u (h.of_below hu') (hshows.reads u hu) (hspans.of_below hu') rfl
      exact hfits.mpr (hshows.fits hspans htakes o List.mem_cons_self)

theorem Outline.FitsIn.reaches {o c : Outline} {r : Range} (h : o.FitsIn r)
    (hc : ReflTransGen (fun a b => b ∈ a.parts) o c) : c.FitsIn r := by
  induction hc with
  | refl => exact h
  | tail _ hd ih => exact ih.part hd

/-- In a program every node but a placeholder for a missing body lies in the range of the node around it, and so
in that of the program, if it is so in the concrete tree. -/
theorem program_ranges_are_nested (c : Concrete) (src : SourceText) (p : Stmt) (hc : c.Spans)
    (h : c.program src = .ok p) :
    p.outline.Nested ∧ ∀ o, ReflTransGen (fun a b => b ∈ a.parts) p.outline o →
      o.IsPlaceholder ∨ o.range.Within p.outline.range := by
  have hroot := c.built_read src none
  have hspans := hc.read src none
  obtain ⟨ss, hshows, rfl⟩ := c.shows_of_program h
  have hfits := hshows.fits hspans fun t ht =>
    have ht' := hshows.below t ht
    Reading.fits_of_spans t (hroot.of_below ht') (hshows.reads t ht) (hspans.of_below ht')
  have hprogram : (Stmt.program (c.read src none).range ss).outline.FitsIn (c.read src none).range :=
    .of_parts (by simp [Stmt.outline]) (by simpa [Outline.parts, Stmt.outline] using hfits)
  refine ⟨hprogram.nested, fun o ho => ?_⟩
  simpa [Stmt.outline] using (hprogram.reaches ho).range

/-- The source `<?php if (1);`, in which the condition has no body. -/
def bodilessIf : Concrete :=
  ⟨"program", 0, 13, true, false, none,
    [⟨"php_tag", 0, 5, true, false, none, []⟩,
     ⟨"if_statement", 6, 13, true, false, none,
      [⟨"if", 6, 8, false, false, none, []⟩,
       ⟨"parenthesized_expression", 9, 12, true, false, some "condition",
        [⟨"(", 9, 10, false, false, none, []⟩, ⟨"integer", 10, 11, true, false, none, []⟩,
         ⟨")", 11, 12, false, false, none, []⟩]⟩]⟩]⟩

theorem spans_bodilessIf : bodilessIf.Spans := by
  repeat' first | refine .node ?_ ?_ | refine List.forall_mem_cons.mpr ⟨?_, ?_⟩ | exact fun _ h => nomatch h
  all_goals decide

theorem bodilessIf_ranges_nested : ∃ p, bodilessIf.program (.ofText "<?php if (1);") = .ok p ∧ p.outline.Nested :=
  ⟨_, rfl, (program_ranges_are_nested bodilessIf (.ofText "<?php if (1);") _ spans_bodilessIf rfl).1⟩

end Ranges

section Errors

/-- Building a program gives one, or says what is missing, or fails at a node that alone is to blame. -/
theorem building_fails_for_a_reason (c : Concrete) (src : SourceText) :
    (∃ p, c.program src = .ok p) ∨
    (∃ range expected found, c.program src = .error (.unexpected range expected found)) ∨
    ∃ e, c.program src = .error e ∧ ∃ n, (n = c.read src none ∨ Reading.Below (c.read src none) n) ∧ n.Raises e := by
  have hcomes := Reading.comes_statements (c.built_read src none).explained fun _ => .child
  unfold Concrete.program
  dsimp only
  split
  · cases hss : Reading.statements (c.read src none).children with
    | ok ss => exact .inl ⟨_, rfl⟩
    | error e =>
      rw [hss] at hcomes
      rcases hcomes with ⟨range, expected, found, rfl⟩ | hraises
      · exact .inr (.inl ⟨_, _, _, rfl⟩)
      · exact .inr (.inr ⟨e, rfl, hraises⟩)
  · exact .inr (.inl ⟨_, _, _, rfl⟩)

/-- The source `<?php [&];`, in which an element of an array is a reference to nothing. -/
def emptyReference : Concrete :=
  ⟨"program", 0, 10, true, false, none,
    [⟨"php_tag", 0, 5, true, false, none, []⟩,
     ⟨"expression_statement", 6, 10, true, false, none,
      [⟨"array_creation_expression", 6, 9, true, false, none,
        [⟨"[", 6, 7, false, false, none, []⟩,
         ⟨"array_element_initializer", 7, 8, true, false, none,
          [⟨"by_ref", 7, 8, true, false, none, [⟨"&", 7, 8, false, false, none, []⟩]⟩]⟩,
         ⟨"]", 8, 9, false, false, none, []⟩]⟩,
       ⟨";", 9, 10, false, false, none, []⟩]⟩]⟩

theorem emptyReference_fails : emptyReference.program (.ofText "<?php [&];") = .error .emptyBinding := rfl

end Errors

end PhpFlow
