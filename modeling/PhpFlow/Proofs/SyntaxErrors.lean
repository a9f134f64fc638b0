import Mathlib.Logic.Relation
import PhpFlow.Proofs.Taken

/-!
# Syntax errors in the tree

A syntax error comes into the tree just if it is reached from the root through nodes that are taken. One
that stands beside them is lost, such as one between an expression and its semicolon. Each construct shows
the errors in what it takes; from there the whole tree follows by induction.
-/
namespace PhpFlow

open List

namespace Reading

attribute [local simp] Expr.outline Stmt.outline Element.outline Case.outline ElseIf.outline Else.outline
  Constant.outline UseClause.outline exprField stmtField

section Expressions

variable {r : Reading} (hr : r.Explained)

include hr

theorem comes_binary :
    r.Builds (r.operand "left" ++ r.operand "right") Expr.outline r.binary := by
  refine .required fun left hleft => .required fun right hright => ?_
  refine .bind (comes_operand hr hleft) fun a ha => .operator fun op => ?_
  refine .bind (comes_operand hr hright) fun b hb => ?_
  exact (ha.append hb).wrap (by simp)

theorem comes_assignment (byRef : Bool) :
    r.Builds (r.operand "left" ++ r.operand "right") Expr.outline (r.assignment byRef) := by
  refine .required fun left hleft => .bind (comes_operand hr hleft) fun a ha => ?_
  refine .required fun right hright => .bind (comes_operand hr hright) fun b hb => ?_
  exact (ha.append hb).wrap (by simp)

theorem comes_augmented :
    r.Builds (r.operand "left" ++ r.operand "right") Expr.outline r.augmented := by
  refine .required fun left hleft => .required fun right hright => .operator fun op => ?_
  refine .bind (comes_operand hr hleft) fun a ha => .bind (comes_operand hr hright) fun b hb => ?_
  exact (ha.append hb).wrap (by simp)

theorem comes_unary :
    r.Builds (r.parts.getLast?.toList.map asExpr) Expr.outline r.unary := by
  unfold unary
  split
  · exact .unexpected
  · next operand hoperand =>
    rw [hoperand]
    refine .operator fun op => .bind (comes_expr hr (.part (mem_of_getLast? hoperand))) fun a ha => ?_
    exact ha.wrap (by simp)

theorem comes_first {expected : String} {g : Expr → Expr}
    (hg : ∀ a : Expr, (g a).outline.Wraps r.range [a.outline]) :
    r.Builds (r.parts.head?.toList.map asExpr) Expr.outline
      (r.firstOf expected >>= fun c => c.expr >>= fun a => pure (g a)) := by
  unfold firstOf
  split
  · next c cs hparts =>
    rw [hparts]
    change r.Comes _ _ (c.expr >>= fun a => pure (g a))
    exact .bind (comes_expr hr (.part (hparts ▸ mem_cons_self))) fun a ha => ha.wrap (hg a)
  · exact .unexpected

theorem comes_update :
    r.Builds (r.parts.head?.toList.map asExpr) Expr.outline r.update :=
  comes_first hr fun a => by simp

theorem comes_parenthesized :
    r.Builds (r.parts.head?.toList.map asExpr) Expr.outline r.parenthesized :=
  comes_first hr fun a => by simp

theorem comes_conditional :
    r.Builds (r.operand "condition" ++ r.operand "body" ++ r.operand "alternative")
      Expr.outline r.conditional := by
  refine .required fun condition hcondition => .bind (comes_operand hr hcondition) fun c hc => ?_
  refine .bind (comes_optionalExpr hr fun _ => .field) fun b hb => ?_
  refine .required fun alternative halternative => .bind (comes_operand hr halternative) fun a ha => ?_
  exact ((hc.append hb).append ha).wrap (by simp)

theorem comes_call :
    r.Builds (r.operand "function" ++ argumentsTake (r.field? "arguments")) Expr.outline
      r.call := by
  refine .required fun function hfunction => .bind (comes_operand hr hfunction) fun f hf => ?_
  refine .bind (comes_arguments hr fun _ => .field) fun as has => ?_
  exact (hf.append has).wrap (by simp)

omit hr in
theorem shows_unknown : r.Shows [] [r.unknown.outline] := Shows.nil.wrap (by simp [unknown])

theorem comes_creation : r.Builds r.creationTakes Expr.outline r.creation := by
  unfold creation creationTakes
  cases hparts : r.parts with
  | nil => exact shows_unknown
  | cons c cs =>
    dsimp only
    split
    · exact shows_unknown
    · have hmem : ∀ d ∈ c :: cs, Below r d := fun d hd => .part (hparts ▸ hd)
      refine .bind (comes_expr hr (hmem c mem_cons_self)) fun a ha => ?_
      refine .bind (comes_arguments hr fun d hd => hmem d (mem_of_find?_eq_some hd)) fun as has => ?_
      exact (ha.append has).wrap (by simp)

theorem comes_element :
    r.Comes r.elementTakes (fun x : Option Element => x.toList.map Element.outline) r.element? := by
  unfold element? elementTakes
  rcases hparts : r.parts with _ | ⟨v, _ | ⟨w, _ | ⟨x, rest⟩⟩⟩
  · exact Shows.nil
  · have hv : Below r v := .part (by simp [hparts])
    have hlast : ∀ c ∈ v.parts.getLast?, Below r c := fun c hc => hv.trans (.part (mem_of_getLast? hc))
    cases hspread : v.type == "variadic_unpacking" with
    | true =>
      simp only [hspread, Bool.true_or, if_true]
      refine .bind (comes_exprOf hr hlast) fun a ha => ?_
      exact ha.wrap (by simp)
    | false =>
      cases href : v.type == "by_ref" with
      | true =>
        simp only [hspread, href, Bool.or_true, Bool.false_eq_true, if_false, if_true]
        cases hinner : v.parts.getLast? with
        | none => exact .inr ⟨v, .inr hv, .inl (by simpa using href), getLast?_eq_none_iff.mp hinner⟩
        | some inner =>
          refine .bind (comes_expr hr (hlast inner hinner)) fun a ha => ?_
          exact ha.wrap (by simp)
      | false =>
        simp only [hspread, href, Bool.or_self, Bool.false_eq_true, if_false]
        refine .bind (comes_expr hr hv) fun a ha => ?_
        exact ha.wrap (by simp)
  · refine .bind (comes_expr hr (.part (by simp [hparts]))) fun a ha => ?_
    refine .bind (comes_expr hr (.part (by simp [hparts]))) fun k hk => ?_
    exact (ha.append hk).wrap (by simp)
  · exact Shows.nil

omit hr in
theorem map_present {α : Type} (f : α → Outline) (os : List (Option α)) :
    (os.filterMap id).map f = os.flatMap fun x => x.toList.map f := by
  induction os with
  | nil => rfl
  | cons x os ih =>
    rw [flatMap_cons, ← ih]
    cases x <;> rfl

theorem comes_array :
    r.Builds ((r.parts.filter fun c => c.type == "array_element_initializer").flatMap elementTakes)
      Expr.outline r.array := by
  refine .bind (.mapM fun c hc => .below hr (.part (mem_filter.mp hc).1) comes_element) fun es hes => ?_
  rw [← map_present] at hes
  exact hes.wrap (by simp)

theorem comes_cast :
    r.Builds ((r.field? "value" <|> r.parts.getLast?).toList.map asExpr) Expr.outline
      r.cast := by
  refine .bind (comes_exprOf hr (below_field_orElse fun _ => mem_of_getLast?)) fun a ha => ?_
  exact ha.wrap (by simp)

theorem comes_subscript :
    r.Builds ((r.parts.take 2).map asExpr) Expr.outline r.subscript := by
  unfold subscript
  split
  · exact .unexpected
  · next base rest hparts =>
    have hmem : ∀ d ∈ base :: rest, Below r d := fun d hd => .part (hparts ▸ hd)
    have htake : (r.parts.take 2).map asExpr = [base.asExpr] ++ rest.head?.toList.map asExpr := by
      cases rest <;> simp [hparts]
    rw [htake]
    refine .bind (comes_optionalExpr hr fun c hc => hmem c (mem_cons_of_mem _ (mem_of_head? hc)))
      fun i hi => ?_
    refine .bind (comes_expr hr (hmem base mem_cons_self)) fun b hb => ?_
    exact (hb.append hi).wrap (by simp)

theorem comes_sequence : r.Builds (r.parts.map asExpr) Expr.outline r.sequence := by
  refine .bind (comes_exprs hr fun _ => .part) fun es hes => ?_
  exact hes.exprMembers.wrap (by simp)

theorem comes_selection :
    r.Builds ((r.field? "condition" <|> r.parts.head?).toList.map asExpr) Expr.outline
      r.selection := by
  refine .bind (comes_exprOf hr (below_field_orElse fun _ => mem_of_head?)) fun a ha => ?_
  exact ha.wrap (by simp)

theorem comes_closure : r.Builds r.closureTakes Expr.outline r.closure := by
  refine .bind (comes_optionalBlock hr fun c hc => .field (Option.mem_filter_iff.mp hc).1) fun b hb => ?_
  refine .bind (comes_parameters hr fun _ => .field) fun ps hps => ?_
  exact (hb.append hps).wrap (by simp [or_comm])

end Expressions

section Statements

variable {r c : Reading} {cs : List Reading} (hr : r.Explained)

include hr

theorem comes_expressionStatement :
    r.Builds (r.parts.head?.toList.map asExpr) Stmt.outline r.expressionStatement := by
  unfold expressionStatement
  split
  · next hparts =>
    rw [hparts]
    exact Shows.nil.wrap (by simp)
  · next c cs hparts =>
    rw [hparts]
    exact .map (comes_expr hr (.part (by simp [hparts]))) fun e he => he.wrap (by simp)

theorem comes_block : r.Builds (statementsTake r.children) Stmt.outline r.block :=
  .map (comes_statements hr fun _ => .child) fun ss hss => hss.wrap (by simp)

theorem comes_echo : r.Builds (r.parts.map asExpr) Stmt.outline r.echo :=
  .bind (comes_exprs hr fun _ => .part) fun es hes => hes.exprMembers.wrap (by simp)

theorem comes_return :
    r.Builds (r.parts.head?.toList.map asExpr) Stmt.outline r.return_ :=
  .map (comes_optionalExpr hr fun _ hc => .part (mem_of_head? hc)) fun e he =>
    he.wrap (by simp)

theorem comes_elseIf : r.Builds r.elseIfTakes ElseIf.outline r.elseIf := by
  refine .required fun condition hcondition => .bind (comes_operand hr hcondition) fun e he => ?_
  refine .bind (comes_body hr fun _ => .field) fun b hb => ?_
  exact (he.append hb).wrap (by simp)

theorem comes_else : r.Builds r.elseTakes Else.outline r.else_ := by
  refine .bind (comes_body hr (below_field_orElse fun _ => mem_of_head?)) fun b hb => ?_
  exact hb.wrap (by simp)

theorem comes_clausePair {α β : Type} (first second : String) (hne : first ≠ second)
    {f : Reading → Except BuildError α} {g : Reading → Except BuildError β} {takes takes' : Reading → List Taken}
    {o : α → Outline} {o' : β → Outline} (hf : ∀ c : Reading, c.Explained → c.Builds (takes c) o (f c))
    (hg : ∀ c : Reading, c.Explained → c.Builds (takes' c) o' (g c)) (hcs : ∀ c ∈ cs, Below r c) :
    r.Comes ((clauses first cs).flatMap takes ++ (clauses second cs).getLast?.toList.flatMap takes')
      (fun p => p.1.map o ++ p.2.toList.map o') (clausePair first second f g cs) := by
  induction cs with
  | nil => exact Shows.nil
  | cons c cs ih =>
    rw [forall_mem_cons] at hcs
    rw [clausePair, clauses_cons, clauses_cons]
    split
    · next hc =>
      have htype : c.type = first := by simp_all
      refine .bind (.below hr hcs.1 (hf c)) fun a ha => .bind (ih hcs.2) fun p hp => ?_
      change r.Shows _ ((a :: p.1).map o ++ p.2.toList.map o')
      simpa [htype, hne] using ha.append hp
    · split
      · next hc =>
        refine .bind (.below hr hcs.1 (hg c)) fun b hb => ?_
        have hrest := ih hcs.2
        cases hp : clausePair first second f g cs with
        | error e =>
          rw [hp] at hrest
          exact hrest
        | ok p =>
          rw [hp] at hrest
          have hrest : r.Shows _ _ := hrest
          change r.Shows _ (p.1.map o ++ (p.2 <|> some b).toList.map o')
          -- All clauses of the second type are read, but only the last of them is taken.
          cases hlast : p.2 with
          | none => simpa [(clausePair_last hne hp).mp hlast, hlast] using hrest.append hb
          | some d =>
            have hsome : clauses second cs ≠ [] := fun h => by simp [(clausePair_last hne hp).mpr h] at hlast
            simpa [getLast?_cons, getLast?_eq_some_getLast hsome, hlast] using hrest
      · exact ih hcs.2

theorem comes_if :
    r.Builds (r.operand "condition" ++ r.bodyTakes ++ ifClausesTake r.children) Stmt.outline
      r.if_ := by
  have hclauses := comes_clausePair hr "else_if_clause" "else_clause" (by decide)
    (fun _ => comes_elseIf) (fun _ => comes_else) fun _ => .child
  rw [← ifClauses_eq] at hclauses
  refine .bind hclauses fun p hp => .required fun condition hcondition => ?_
  refine .bind (comes_operand hr hcondition) fun c hc => .bind (comes_body hr fun _ => .field) fun b hb => ?_
  exact ((hc.append hb).append hp).wrap (by simp)

theorem comes_while :
    r.Builds (r.operand "condition" ++ r.bodyTakes) Stmt.outline r.while_ := by
  refine .required fun condition hcondition => .bind (comes_operand hr hcondition) fun c hc => ?_
  refine .bind (comes_body hr fun _ => .field) fun b hb => ?_
  exact (hc.append hb).wrap (by simp)

theorem comes_doWhile :
    r.Builds (r.operand "condition" ++ r.bodyTakes) Stmt.outline r.doWhile := by
  refine .bind (comes_body hr fun _ => .field) fun b hb => .required fun condition hcondition => ?_
  refine .bind (comes_operand hr hcondition) fun c hc => ?_
  exact (hc.append hb).wrap (by simp [or_comm])

theorem comes_forBody (slot : Nat) (hcs : ∀ c ∈ cs, Below r c) :
    r.Comes (statementsTake cs) ForParts.outlines (forParts slot false cs) := by
  induction cs with
  | nil => exact Shows.nil
  | cons c cs ih =>
    have hrest := ih fun d hd => hcs d (mem_cons_of_mem c hd)
    unfold forParts
    simp only [Bool.not_false, if_true]
    split
    · next hc =>
      rw [statementsTake, filter_cons_of_pos hc]
      refine .bind (comes_stmt hr (hcs c mem_cons_self)) fun s hs => .bind hrest fun p hp => ?_
      refine (hs.stmtMembers.append hp).of_mem_iff fun o => ?_
      simp only [ForParts.outlines, map_append, mem_append]
      grind
    · next hc =>
      rw [statementsTake, filter_cons_of_neg hc]
      exact hrest

theorem comes_forParts (slot : Nat) (hcs : ∀ c ∈ cs, Below r c) :
    r.Comes (forTakes cs) ForParts.outlines (forParts slot true cs) := by
  induction cs generalizing slot with
  | nil => exact Shows.nil
  | cons c cs ih =>
    have hcs' := fun d hd => hcs d (mem_cons_of_mem c hd)
    unfold forParts
    simp only [Bool.not_true, Bool.false_eq_true, if_false]
    split
    · next hc =>
      have hc : c.type = ";" := by simpa using hc
      simpa [forTakes, hc] using ih (slot + 1) hcs'
    · next hsemicolon =>
      split
      · next hc =>
        have hc : c.type = ")" := by simpa using hc
        simpa [forTakes, hc] using comes_forBody hr slot hcs'
      · next hclose =>
        split
        · next hc =>
          have htakes : forTakes (c :: cs) = [c.asExpr] ++ forTakes cs := by simp_all [forTakes]
          rw [htakes]
          refine .bind (comes_expr hr (hcs c mem_cons_self)) fun e he => .bind (ih slot hcs') fun p hp => ?_
          have he : r.Shows [c.asExpr] ([e].map Expr.outline) := he
          have he : r.Shows [c.asExpr] (e.members.map Expr.outline) := by simpa using he.exprMembers
          exact (he.append hp).of_mem_iff (p.mem_outlines_addTo slot e.members)
        · next hc =>
          have htakes : forTakes (c :: cs) = forTakes cs := by simp_all [forTakes]
          rw [htakes]
          exact ih slot hcs'

theorem comes_for : r.Builds (forTakes r.children) Stmt.outline r.for_ := by
  refine .bind (comes_forParts hr 0 fun _ => .child) fun p hp => ?_
  exact hp.wrap (by simp [ForParts.outlines])

omit hr in
theorem bindTo_cases (key : Option Expr) (hc : Below r c) :
    (∃ d byRef, bindTo key c = .ok (key, d, byRef) ∧ c.bound? = some d ∧ Below r d) ∨
      bindTo key c = .error .emptyBinding ∧ r.Explains .emptyBinding := by
  unfold bindTo bound?
  cases href : c.type == "by_ref" with
  | true =>
    simp only [if_true]
    cases hlast : c.parts.getLast? with
    | none => exact .inr ⟨rfl, .inr ⟨c, .inr hc, .inl (by simpa using href), getLast?_eq_none_iff.mp hlast⟩⟩
    | some d => exact .inl ⟨d, true, rfl, rfl, hc.trans (.part (mem_of_getLast? hlast))⟩
  | false => exact .inl ⟨c, false, rfl, rfl, hc⟩

/-- What is bound are a key, which may be missing, and the last of the nodes that are taken. -/
theorem foreachBinding_cases (hc : Below r c) :
    (∃ key d byRef ks, c.foreachBinding = .ok (key, d, byRef) ∧ Below r d ∧
      r.Shows ks (key.toList.map Expr.outline) ∧ c.bindingTakes = ks ++ [d.asExpr]) ∨
    ∃ e, c.foreachBinding = .error e ∧ r.Explains e := by
  rw [foreachBinding_eq, bindingTakes]
  cases hpair : c.type == "pair" with
  | false =>
    rcases bindTo_cases none hc with ⟨d, byRef, hbind, hbound, hd⟩ | herror
    · exact .inl ⟨none, d, byRef, [], hbind, hd, .nil, by simp [hbound]⟩
    · exact .inr ⟨_, herror⟩
  | true =>
    simp only [if_true]
    cases hparts : c.parts with
    | nil => exact .inr ⟨_, rfl, .inr ⟨c, .inr hc, .inr (by simpa using hpair), hparts⟩⟩
    | cons k cs =>
      obtain ⟨v, hv⟩ : ∃ v, (k :: cs).getLast? = some v := ⟨_, getLast?_eq_some_getLast (by simp)⟩
      have hk : Below r k := hc.trans (.part (by simp [hparts]))
      have hvalue : Below r v := hc.trans (.part (hparts ▸ mem_of_getLast? hv))
      simp only [head?_cons, hv]
      have hkey := comes_expr hr hk
      cases he : k.expr with
      | error e =>
        rw [he] at hkey
        exact .inr ⟨e, rfl, hkey⟩
      | ok e =>
        rw [he] at hkey
        rcases bindTo_cases (some e) hvalue with ⟨d, byRef, hbind, hbound, hd⟩ | herror
        · exact .inl ⟨some e, d, byRef, [k.asExpr], hbind, hd, hkey, by simp [hbound]⟩
        · exact .inr ⟨_, herror⟩

theorem comes_foreach : r.Builds r.foreachTakes Stmt.outline r.foreach := by
  unfold foreach foreachTakes
  rcases hparts : (r.childrenBesides "body").filter isPart with _ | ⟨subject, _ | ⟨binding, rest⟩⟩
  · exact .unexpected
  · exact .unexpected
  · have hmem : ∀ c ∈ subject :: binding :: rest, Below r c := fun c hc =>
      .child (mem_of_mem_eraseP (mem_filter.mp (hparts ▸ hc)).1)
    dsimp only
    rcases foreachBinding_cases hr (hmem binding (by simp)) with ⟨key, d, byRef, ks, hbind, hd, hkey, htakes⟩ |
      ⟨e, hbind, he⟩
    · rw [hbind, htakes]
      change r.Comes _ _ (subject.expr >>= _)
      refine .bind (comes_expr hr (hmem subject (by simp))) fun e he => ?_
      refine .bind (comes_expr hr hd) fun v hv => ?_
      have hbody := comes_body hr (o := r.field? "body" <|> rest.getLast?)
        (below_orElse (fun _ => .field) fun c hc => hmem c (by simp [mem_of_getLast? hc]))
      refine .bind hbody fun b hb => ?_
      have hall : r.Shows _ ([e.outline, v.outline, b.outline] ++ key.toList.map Expr.outline) :=
        ((he.append (hkey.append hv)).append hb).of_mem_iff fun o => by simp [or_comm, or_assoc]
      exact hall.wrap (by simp)
    · rw [hbind]
      exact he

/-- Other nodes among the arms of a switch are left out. -/
theorem comes_case :
    r.Comes r.caseTakes (fun c : Option Case => c.toList.map Case.outline) r.case? := by
  unfold case? caseTakes
  cases hcase : r.type == "case_statement" with
  | true =>
    have hrest : ∀ c ∈ r.childrenBesides "value", Below r c := fun c hc => .child (mem_of_mem_eraseP hc)
    refine .bind (comes_exprOf hr fun _ => .field) fun v hv => .bind (comes_statements hr hrest) fun ss hss => ?_
    exact (hv.append hss).wrap (by simp)
  | false =>
    cases hdefault : r.type == "default_statement" with
    | true =>
      refine .bind (comes_statements hr fun _ => .child) fun ss hss => ?_
      exact hss.wrap (by simp)
    | false => exact Shows.nil

theorem comes_switch :
    r.Builds (r.operand "condition" ++ (partsOf (r.field? "body")).flatMap caseTakes)
      Stmt.outline r.switch := by
  refine .required fun condition hcondition => .bind (comes_operand hr hcondition) fun e he => ?_
  refine .bind (.mapM fun c hc => .below hr (below_partsOf (fun _ => .field) c hc) comes_case) fun cs hcs => ?_
  rw [← map_present] at hcs
  exact (he.append hcs).wrap (by simp)

theorem comes_requiredBlock (hc : r.field? "body" = some c) :
    r.Builds r.bodyTakes Stmt.outline c.blockBody := by
  simp only [bodyTakes, hc]
  exact comes_blockBody hr (.field hc)

theorem comes_catch : r.Builds r.bodyTakes Catch.outline r.catch_ := by
  have hname : r.Shows [] ((r.field? "name").toList.map fun c => c.variableName.outline) :=
    .leaves (by simpa using fun c hc => Shows.ofVariable (.field hc))
  refine .required fun body hbody => .bind (comes_requiredBlock hr hbody) fun b hb => ?_
  rw [← append_nil r.bodyTakes]
  refine (hb.append hname).wrap ?_
  cases r.field? "name" <;> simp [Catch.outline]

theorem comes_finally : r.Builds r.bodyTakes Stmt.outline r.finally_ :=
  .required fun _ => comes_requiredBlock hr

theorem comes_try :
    r.Builds (r.bodyTakes ++ tryClausesTake r.children) Stmt.outline r.try_ := by
  have hclauses := comes_clausePair hr "catch_clause" "finally_clause" (by decide)
    (fun _ => comes_catch) (fun _ => comes_finally) fun _ => .child
  rw [← tryClauses_eq] at hclauses
  refine .required fun body hbody => .bind (comes_requiredBlock hr hbody) fun b hb => ?_
  refine .bind hclauses fun p hp => ?_
  exact (hb.append hp).wrap (by simp)

/-- A node of its own around the parameters and the body of a function. -/
theorem comes_function {g : Function → Outline}
    (hg : ∀ f : Function, (g f).Wraps f.range (f.fields.flatMap fun v => v.2.parts)) :
    r.Builds r.functionTakes g r.function := by
  refine .required fun name _ => .bind (comes_parameters hr fun _ => .field) fun ps hps => ?_
  refine .bind (comes_optionalBlock hr fun _ => .field) fun b hb => ?_
  refine (hps.append hb).of_mem_iff (fun o => ?_) |>.wrap (hg _)
  simp [Function.fields]

theorem comes_class :
    r.Builds (((partsOf (r.field? "body")).filter fun c =>
      c.type == "method_declaration").flatMap functionTakes) Stmt.outline r.class_ := by
  have hmethod : ∀ c : Reading, c.Explained →
      c.Builds c.functionTakes Method.outline c.method := fun c hc =>
    .bind (comes_function hc (g := fun f => (Method.mk f _).outline) fun f => by
      cases f
      simp [Method.outline]) fun f hf => hf
  refine .bind (.mapM_one fun c hc => .below hr (below_partsOf (fun _ => .field) c (mem_filter.mp hc).1)
    (hmethod c)) fun ms hms => .required fun name _ => ?_
  exact hms.wrap (by simp)

theorem comes_namespace :
    r.Builds ((r.field? "body").toList.flatMap fun b => statementsTake b.children)
      Stmt.outline r.namespace_ := by
  unfold namespace_
  cases hfield : r.field? "body" with
  | none => exact Shows.nil.wrap (by simp)
  | some b =>
    have hblock := Comes.below hr (.field hfield) comes_block
    have hbody : r.Comes (statementsTake b.children) (fun s : Option Stmt => s.toList.map Stmt.outline)
        (b.block.map some) := .map hblock fun s hs => hs
    simp only [Option.toList_some, flatMap_singleton]
    exact .bind hbody fun s hs => hs.wrap (by simp)

theorem comes_constant : r.Builds r.constantTakes Constant.outline r.constant := by
  unfold constant constantTakes
  rcases hparts : r.parts with _ | ⟨name, _ | ⟨value, rest⟩⟩
  · exact .unexpected
  · exact .unexpected
  · have hvalue : Below r (rest.getLast?.getD value) := .part (by
      rw [hparts]
      cases hrest : rest.getLast? with
      | none => simp
      | some d => simp [mem_of_getLast? hrest])
    exact .bind (comes_expr hr hvalue) fun e he => he.wrap (by simp)

theorem comes_const :
    r.Builds ((r.parts.filter fun c => c.type == "const_element").flatMap constantTakes)
      Stmt.outline r.const := by
  refine .bind (.mapM_one fun c hc => .below hr (.part (mem_filter.mp hc).1) comes_constant) fun cs hcs => ?_
  exact hcs.wrap (by simp)

omit hr in
theorem shows_use : r.Shows [] [(Stmt.use r.range (r.parts.filterMap useClause?)).outline] := by
  have hclauses : r.Shows [] ((r.parts.filterMap useClause?).map UseClause.outline) := by
    refine .leaves ?_
    simp only [forall_mem_map, mem_filterMap]
    rintro u ⟨c, hc, hu⟩
    unfold useClause? at hu
    split at hu
    · obtain ⟨⟨n, a⟩, -, rfl⟩ := Option.map_eq_some_iff.mp hu
      exact .above (Shows.nil.wrap (by simp)) (.part hc)
    · cases hu
  exact hclauses.wrap (by simp)

omit hr in
theorem shows_global : r.Shows [] [r.global.outline] := by
  have hvariables : r.Shows [] ((r.parts.filter fun c => c.type == "variable_name").map
      fun c => c.variableName.outline) :=
    .leaves (forall_mem_map.mpr fun c hc => .ofVariable (.part (mem_filter.mp hc).1))
  exact hvariables.wrap (by simp [global])

end Statements

section Nodes

/-! How a node is read depends on the node and its children alone, not on the readings it has already. -/

section Alone

variable (m : Mark) (cs : List Reading) (s s' : Except BuildError Stmt) (e e' : Except BuildError Expr)

theorem integer_mk : (⟨m, cs, s, e⟩ : Reading).integer = (⟨m, cs, s', e'⟩ : Reading).integer := by
  unfold integer text range
  dsimp only

theorem toExpr_mk : (⟨m, cs, s, e⟩ : Reading).toExpr = (⟨m, cs, s', e'⟩ : Reading).toExpr := by
  unfold toExpr
  -- Of all the cases only this one is not opened by computation in reasonable time.
  rw [integer_mk m cs s s' e e']
  rfl

end Alone

variable {r : Reading}

inductive Built : Reading → Prop where
  | node (m : Mark) {cs : List Reading} (h : ∀ c ∈ cs, Built c) : Built (.ofMark m cs)

theorem Built.child {c : Reading} (h : r.Built) (hc : c ∈ r.children) : c.Built := by
  cases h with
  | node m h => exact h c hc

theorem Built.of_below {c : Reading} (h : r.Built) (hc : Below r c) : c.Built := by
  induction hc with
  | child hc => exact h.child hc
  | deeper _ hd ih => exact ih.child hd

theorem Built.expr_eq (h : r.Built) : r.expr = r.toExpr := by
  cases h with
  | node m h => exact toExpr_mk ..

theorem Built.stmt_eq (h : r.Built) : r.stmt = r.toStmt := by
  cases h with
  | node m h => rfl

/-- A node that is an error takes nothing and has nothing in it. Any other is put together from what it
takes, unless its reading fails for a reason. -/
def Taken.Settles {α : Type} (t : Taken) (f : α → Outline) (x : Except BuildError α) : Prop :=
  (t.isError = true ∧ t.takes = [] ∧ ∃ a text, x = .ok a ∧ f a = ⟨.error, t.node.range, [("text", .text text)]⟩) ∨
    t.isError = false ∧ t.node.Builds t.takes f x

namespace Taken.Settles

variable {α : Type} {t : Taken} {f : α → Outline} {x : Except BuildError α}

theorem explains (h : t.Settles f x) {e : BuildError} (he : x = .error e) : t.node.Explains e := by
  subst he
  rcases h with ⟨-, -, a, text, ha, -⟩ | ⟨-, hcomes⟩
  · cases ha
  · exact hcomes

theorem shows (h : t.Settles f x) {a : α} (ha : x = .ok a) :
    (t.isError = true ∧ ∃ text, f a = ⟨.error, t.node.range, [("text", .text text)]⟩) ∨
      t.isError = false ∧ t.node.Shows t.takes [f a] := by
  subst ha
  rcases h with ⟨herror, -, _, text, ⟨⟩, htext⟩ | hcomes
  · exact .inl ⟨herror, text, htext⟩
  · exact .inr hcomes

end Taken.Settles

variable {type : String} {ts : List Taken}

theorem settles_expr {x : Except BuildError Expr} (hm : r.mark.missing = false) (ht : r.type = type)
    (h : r.Builds ts Expr.outline x) (htype : (type != "ERROR" && type != "integer") = true := by rfl)
    (htakes : r.exprTakes = ts := by simp [exprTakes, *]) : r.asExpr.Settles Expr.outline x := by
  subst htakes
  exact .inr ⟨by simp_all [Taken.isError, asExpr], h⟩

theorem settles_stmt {x : Except BuildError Stmt} (ht : r.type = type) (h : r.Builds ts Stmt.outline x)
    (htype : (type != "ERROR") = true := by rfl) (htakes : r.stmtTakes = ts := by simp [stmtTakes, *]) :
    r.asStmt.Settles Stmt.outline x := by
  subst htakes
  exact .inr ⟨by simp_all [Taken.isError, asStmt], h⟩

theorem settles_integer (hm : r.mark.missing = false) (ht : r.type = "integer") :
    r.asExpr.Settles Expr.outline r.integer := by
  have htakes : r.asExpr.takes = [] := by simp [Taken.takes, asExpr, exprTakes, ht]
  have herror : r.asExpr.isError = (Literal.int? r.text).isNone := by simp [Taken.isError, asExpr, hm, ht]
  unfold integer Taken.Settles
  rw [htakes, herror]
  split
  · next hint => exact .inl ⟨by simp [hint], rfl, _, r.text, rfl, by simp [asExpr]⟩
  · next n hint =>
    refine .inr ⟨by simp [hint], ?_⟩
    split
    · next hmax =>
      split
      · exact Shows.nil.wrap (by simp [asExpr])
      · next hlarge => exact .inr ⟨r, .inl rfl, ht, n, hint, hmax, hlarge⟩
    · exact Shows.nil.wrap (by simp [asExpr])

theorem comes_float (ht : r.type = "float") : r.Builds [] Expr.outline r.float := by
  unfold float
  split
  · exact Shows.nil.wrap (by simp)
  · next hfloat => exact .inr ⟨r, .inl rfl, ht, hfloat, rfl⟩

theorem shows_encapsed (r : Reading) : r.Shows [] [r.encapsed.outline] := by
  unfold encapsed
  dsimp only
  split <;> exact Shows.nil.wrap (by simp)

theorem shows_string (r : Reading) : r.Shows [] [r.string.outline] := by
  unfold string
  dsimp only
  split
  case h_4 => exact r.shows_encapsed
  all_goals exact Shows.nil.wrap (by simp)

theorem settles_toExpr (hr : r.Explained) : r.asExpr.Settles Expr.outline r.toExpr := by
  unfold toExpr
  split
  · next hm =>
    exact .inl ⟨by simp [Taken.isError, asExpr, hm], by simp [Taken.takes, asExpr, exprTakes, hm], _, r.text,
      rfl, by simp [asExpr]⟩
  · next hm =>
    have hm : r.mark.missing = false := by simpa using hm
    split
    case h_1 ht | h_2 ht | h_3 ht | h_8 ht | h_9 ht => exact settles_expr hm ht (Shows.nil.wrap (by simp))
    · next ht => exact settles_integer hm ht
    · next ht => exact settles_expr hm ht (comes_float ht)
    · next ht => exact settles_expr hm ht r.shows_string
    · next ht => exact settles_expr hm ht r.shows_encapsed
    · next ht => exact settles_expr hm ht (comes_binary hr)
    · next ht => exact settles_expr hm ht (comes_unary hr)
    · next ht => exact settles_expr hm ht (comes_update hr)
    · next ht => exact settles_expr hm ht (comes_parenthesized hr)
    case h_14 ht | h_15 ht => exact settles_expr hm ht (comes_assignment hr _)
    · next ht => exact settles_expr hm ht (comes_augmented hr)
    · next ht => exact settles_expr hm ht (comes_conditional hr)
    · next ht => exact settles_expr hm ht (comes_call hr)
    · next ht => exact settles_expr hm ht (comes_creation hr)
    · next ht => exact settles_expr hm ht (comes_array hr)
    · next ht => exact settles_expr hm ht (comes_cast hr)
    · next ht => exact settles_expr hm ht (comes_subscript hr)
    · next ht => exact settles_expr hm ht (comes_sequence hr)
    · next ht => exact settles_expr hm ht (comes_selection hr)
    case h_25 ht | h_26 ht | h_27 ht => exact settles_expr hm ht (comes_closure hr)
    · next ht =>
      exact .inl ⟨by simp [Taken.isError, asExpr, ht], by simp [Taken.takes, asExpr, exprTakes, ht], _, r.text,
        rfl, by simp [asExpr]⟩
    · have htakes : r.exprTakes = [] := by
        unfold exprTakes
        rw [hm, if_neg (by decide)]
        split <;> first | rfl | contradiction
      exact settles_expr hm rfl shows_unknown (by simp_all) htakes

theorem settles_toStmt (hr : r.Explained) : r.asStmt.Settles Stmt.outline r.toStmt := by
  unfold toStmt
  split
  case h_1 ht | h_12 ht | h_13 ht | h_14 ht => exact settles_stmt ht (Shows.nil.wrap (by simp))
  · next ht => exact settles_stmt ht (comes_expressionStatement hr)
  · next ht => exact settles_stmt ht (comes_block hr)
  · next ht => exact settles_stmt ht (comes_echo hr)
  · next ht => exact settles_stmt ht (comes_return hr)
  · next ht => exact settles_stmt ht (comes_if hr)
  · next ht => exact settles_stmt ht (comes_while hr)
  · next ht => exact settles_stmt ht (comes_doWhile hr)
  · next ht => exact settles_stmt ht (comes_for hr)
  · next ht => exact settles_stmt ht (comes_foreach hr)
  · next ht => exact settles_stmt ht (comes_switch hr)
  · next ht => exact settles_stmt ht (comes_try hr)
  · next ht =>
    refine settles_stmt ht (.map (comes_function hr fun f => ?_) fun f hf => hf)
    simp
  case h_17 ht | h_18 ht => exact settles_stmt ht (comes_class hr)
  · next ht => exact settles_stmt ht (comes_namespace hr)
  · next ht => exact settles_stmt ht shows_use
  · next ht => exact settles_stmt ht (comes_const hr)
  · next ht => exact settles_stmt ht shows_global
  · next ht =>
    exact .inl ⟨by simp [Taken.isError, asStmt, ht], by simp [Taken.takes, asStmt, stmtTakes, ht], _, r.text,
      rfl, by simp [asStmt]⟩
  · have htakes : r.stmtTakes = [] := by
      unfold stmtTakes
      split <;> first | rfl | contradiction
    exact settles_stmt rfl (Shows.nil.wrap (by simp)) (by simp_all) htakes

theorem Built.explained (h : r.Built) : r.Explained := by
  induction hn : sizeOf r using Nat.strongRecOn generalizing r with
  | _ n ih =>
    subst hn
    have hbelow : ∀ c, Below r c → c.Explained := fun c hc => ih _ hc.sizeOf_lt (h.of_below hc) rfl
    exact ⟨fun c hc e he => (settles_toExpr (hbelow c hc)).explains ((h.of_below hc).expr_eq ▸ he),
      fun c hc e he => (settles_toStmt (hbelow c hc)).explains ((h.of_below hc).stmt_eq ▸ he)⟩

/-- What a node is read as is an error in its range, or is put together from what is taken. -/
theorem Built.shows {t : Taken} (h : t.node.Built) (hr : t.Reads) :
    ∃ o : Outline, (t.Intact ↔ o.Intact) ∧ (t.Fits ↔ o.FitsIn t.node.range) ∧
      ((t.isError = true ∧ ∃ text, o = ⟨.error, t.node.range, [("text", .text text)]⟩) ∨
        t.isError = false ∧ t.node.Shows t.takes [o]) := by
  obtain ⟨manner, r⟩ := t
  cases manner with
  | statement =>
    obtain ⟨s, hs⟩ := hr
    exact ⟨s.outline, by simp [Taken.Intact, hs], by simp [Taken.Fits, hs],
      (settles_toStmt h.explained).shows (h.stmt_eq ▸ hs)⟩
  | expression =>
    obtain ⟨e, he⟩ := hr
    exact ⟨e.outline, by simp [Taken.Intact, he], by simp [Taken.Fits, he],
      (settles_toExpr h.explained).shows (h.expr_eq ▸ he)⟩

end Nodes

def Takes (t u : Taken) : Prop := u ∈ t.takes

open Relation (ReflTransGen)

/-- A node is read without errors just if no node is one that is reached through taken nodes. -/
theorem intact_iff (t : Taken) (h : t.node.Built) (hr : t.Reads) :
    t.Intact ↔ ∀ u, ReflTransGen Takes t u → u.isError = false := by
  -- What is taken stands below, so that the size of the node goes down along the way.
  induction hn : sizeOf t.node using Nat.strongRecOn generalizing t with
  | _ n ih =>
    subst hn
    obtain ⟨o, hintact, -, ⟨herror, text, rfl⟩ | ⟨herror, hshows⟩⟩ := h.shows hr
    · rw [hintact]
      refine iff_of_false (by simp [Outline.Intact]) fun hall => ?_
      simpa [herror] using hall t .refl
    · have hstep : ∀ u ∈ t.takes, (u.Intact ↔ ∀ w, ReflTransGen Takes u w → w.isError = false) := fun u hu =>
        ih _ (hshows.below u hu).sizeOf_lt u (h.of_below (hshows.below u hu)) (hshows.reads u hu) rfl
      have htakes : t.Intact ↔ ∀ u ∈ t.takes, u.Intact := by simpa [hintact] using hshows.intact
      rw [htakes]
      constructor
      · intro hall w hw
        rcases hw.cases_head with rfl | ⟨u, hu, hw⟩
        · exact herror
        · exact (hstep u hu).mp (hall u hu) w hw
      · exact fun hall u hu => (hstep u hu).mpr fun w hw => hall w (.head hu hw)

end Reading

open Reading (Built Takes)
open Relation (ReflTransGen)

mutual

theorem Concrete.built_read (src : SourceText) (doc : Option String) (c : Concrete) :
    (c.read src doc).Built := by
  obtain ⟨type, start, stop, named, missing, field, children⟩ := c
  exact .node _ (built_readChildren src none children)

theorem built_readChildren (src : SourceText) (doc : Option String) (cs : List Concrete) :
    ∀ r ∈ readChildren src doc cs, r.Built := by
  cases cs with
  | nil => simp [readChildren]
  | cons c cs =>
    rw [readChildren, forall_mem_cons]
    exact ⟨c.built_read src doc, built_readChildren src _ cs⟩

end

/-- A program is put together from the statements at its top. -/
theorem Concrete.shows_of_program (c : Concrete) {src : SourceText} {p : Stmt} (h : c.program src = .ok p) :
    ∃ ss, (c.read src none).Shows (Reading.statementsTake (c.read src none).children) (ss.map Stmt.outline) ∧
      p = .program (c.read src none).range ss := by
  have hcomes := Reading.comes_statements (c.built_read src none).explained fun _ => .child
  unfold Concrete.program at h
  dsimp only at h
  split at h
  · obtain ⟨ss, hss, rfl⟩ := map_eq_ok_iff.mp h
    rw [hss] at hcomes
    exact ⟨ss, hcomes, rfl⟩
  · cases h

/-- A program is read without errors just if none is reached from the statements at its top. -/
theorem intact_program_iff {c : Concrete} {src : SourceText} {p : Stmt} (h : c.program src = .ok p) :
    p.outline.Intact ↔ ∀ r ∈ (c.read src none).children, r.isStatement = true →
      ∀ t, ReflTransGen Takes r.asStmt t → t.isError = false := by
  have hroot := c.built_read src none
  obtain ⟨ss, hshows, rfl⟩ := c.shows_of_program h
  calc (Stmt.program (c.read src none).range ss).outline.Intact
      ↔ ∀ o ∈ ss.map Stmt.outline, o.Intact := by
        rw [Outline.intact_iff_parts (by simp [Stmt.outline]) (by simp [Stmt.outline])]
        simp [Outline.parts, Stmt.outline]
    _ ↔ ∀ t ∈ Reading.statementsTake (c.read src none).children, t.Intact := hshows.intact
    _ ↔ ∀ t ∈ Reading.statementsTake (c.read src none).children,
          ∀ u, ReflTransGen Takes t u → u.isError = false := forall₂_congr fun t ht =>
        Reading.intact_iff t (hroot.of_below (hshows.below t ht)) (hshows.reads t ht)
    _ ↔ _ := by simp only [Reading.statementsTake, forall_mem_map, mem_filter, and_imp]

/-- A program that is read has a syntax error in it just if one is reached from the statements at the top
through nodes that are taken. -/
theorem program_has_error_iff_taken (c : Concrete) (src : SourceText) (p : Stmt) (h : c.program src = .ok p) :
    (∃ n ∈ p.outline.walk, n.kind = .error) ↔
      ∃ r ∈ (c.read src none).children, r.isStatement = true ∧
        ∃ t, ReflTransGen Takes r.asStmt t ∧ t.isError = true := by
  have hbroken : (∃ n ∈ p.outline.walk, n.kind = .error) ↔ ¬p.outline.Intact := by
    obtain ⟨ss, -, rfl⟩ := c.shows_of_program h
    have hkind : (Stmt.program (c.read src none).range ss).outline.kind ≠ .comment := by simp [Stmt.outline]
    simp [Outline.Intact, Outline.Passes, Outline.Every, hkind]
  rw [hbroken, intact_program_iff h]
  simp

section Sources

/-- The source `<?php echo (=);`, in which parentheses hold nothing but an error. -/
def brokenEcho : Concrete :=
  ⟨"program", 0, 15, true, false, none,
    [⟨"php_tag", 0, 5, true, false, none, []⟩,
     ⟨"echo_statement", 6, 15, true, false, none,
      [⟨"echo", 6, 10, false, false, none, []⟩,
       ⟨"parenthesized_expression", 11, 14, true, false, none,
        [⟨"(", 11, 12, false, false, none, []⟩,
         ⟨"ERROR", 12, 13, true, false, none, [⟨"=", 12, 13, false, false, none, []⟩]⟩,
         ⟨")", 13, 14, false, false, none, []⟩]⟩,
       ⟨";", 14, 15, false, false, none, []⟩]⟩]⟩

def brokenEchoSource : SourceText := .ofText "<?php echo (=);"

theorem brokenEcho_has_error : ∃ p, brokenEcho.program brokenEchoSource = .ok p ∧
    ∃ n ∈ p.outline.walk, n.kind = .error := by
  refine ⟨_, rfl, (program_has_error_iff_taken brokenEcho brokenEchoSource _ rfl).mpr ?_⟩
  refine ⟨_, mem_cons_of_mem _ mem_cons_self, by decide, ?_⟩
  exact ⟨_, .head mem_cons_self (.head mem_cons_self .refl), by decide⟩

/-- The source `<?php $a = ;`, in which the error stands between the variable and the semicolon. -/
def missingValue : Concrete :=
  ⟨"program", 0, 12, true, false, none,
    [⟨"php_tag", 0, 5, true, false, none, []⟩,
     ⟨"expression_statement", 6, 12, true, false, none,
      [⟨"variable_name", 6, 8, true, false, none,
        [⟨"$", 6, 7, false, false, none, []⟩, ⟨"name", 7, 8, true, false, none, []⟩]⟩,
       ⟨"ERROR", 9, 10, true, false, none, [⟨"=", 9, 10, false, false, none, []⟩]⟩,
       ⟨";", 11, 12, false, false, none, []⟩]⟩]⟩

def missingValueSource : SourceText := .ofText "<?php $a = ;"

/-- The program and the statement around the error are read as what they are, and the error is lost. -/
theorem missingValue_loses_error :
    (∃ s ∈ missingValue.children, s.type = "expression_statement" ∧ ∃ e ∈ s.children, e.type = "ERROR") ∧
    ∃ p, missingValue.program missingValueSource = .ok p ∧
      p = .program (missingValueSource.range 0 12) [.expression (missingValueSource.range 6 12)
        (.var (missingValueSource.range 6 8) "a")] ∧
      ¬∃ n ∈ p.outline.walk, n.kind = .error := by
  refine ⟨?_, _, rfl, by rfl, by decide⟩
  simp [missingValue]

end Sources

end PhpFlow
