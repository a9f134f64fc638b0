import PhpFlow.Concrete.Program
import PhpFlow.Proofs.Outlines

/-!
# What a reading takes

The reading of a node takes some of the nodes below it, each as a statement or as an expression, and leaves
out all others. What is read is put together from what is taken: it has no syntax error in it just if there
is none in that, and it lies in the range of the node.
-/
namespace PhpFlow

open List

section Results

variable {ε α β : Type}

theorem bind_eq_ok_iff {x : Except ε α} {f : α → Except ε β} {b : β} :
    x >>= f = .ok b ↔ ∃ a, x = .ok a ∧ f a = .ok b := by
  cases x with
  | error e => exact ⟨nofun, nofun⟩
  | ok a =>
    constructor
    · exact fun h => ⟨a, rfl, h⟩
    · rintro ⟨_, ⟨⟩, h⟩
      exact h

theorem map_eq_ok_iff {x : Except ε α} {f : α → β} {b : β} :
    x.map f = .ok b ↔ ∃ a, x = .ok a ∧ f a = b := by
  cases x with
  | error e => exact ⟨nofun, nofun⟩
  | ok a =>
    constructor
    · exact fun h => ⟨a, rfl, Except.ok.inj h⟩
    · rintro ⟨_, ⟨⟩, h⟩
      exact congrArg _ h

end Results

section Trees

def Range.Within (inner outer : Range) : Prop :=
  outer.startByte ≤ inner.startByte ∧ inner.stopByte ≤ outer.stopByte

theorem Range.Within.refl (r : Range) : r.Within r := ⟨Nat.le_refl _, Nat.le_refl _⟩

theorem Range.Within.trans {a b c : Range} (h : a.Within b) (h' : b.Within c) : a.Within c :=
  ⟨Nat.le_trans h'.1 h.1, Nat.le_trans h.2 h'.2⟩

namespace Outline

def Intact (o : Outline) : Prop := o.Passes (· ≠ .error)

theorem intact_iff_parts {o : Outline} (hkind : o.kind ≠ .error) (hcomment : o.kind = .comment → o.parts = []) :
    o.Intact ↔ ∀ c ∈ o.parts, c.Intact := by
  obtain ⟨k, r, fs⟩ := o
  by_cases hk : k = .comment
  · subst hk
    simp [hcomment rfl, Intact]
  · simp only [Intact, passes_iff, parts, forall_mem_flatMap]
    exact ⟨fun h => (h hk).2, fun h _ => ⟨hkind, h⟩⟩

/-- What stands for a body that is missing. -/
def IsPlaceholder (o : Outline) : Prop := o = (Stmt.empty .zero).outline

/-- Each node of the tree but a placeholder lies in the range of the node around it. -/
inductive Nested : Outline → Prop where
  | node {o : Outline} (hrange : ∀ c ∈ o.parts, c.IsPlaceholder ∨ c.range.Within o.range)
      (hparts : ∀ c ∈ o.parts, Nested c) : Nested o

structure FitsIn (o : Outline) (r : Range) : Prop where
  range : o.IsPlaceholder ∨ o.range.Within r
  nested : o.Nested

variable {o c : Outline} {r r' : Range}

theorem FitsIn.mono (h : o.FitsIn r) (hr : r.Within r') : o.FitsIn r' :=
  ⟨h.range.imp_right (·.trans hr), h.nested⟩

theorem FitsIn.of_parts (hrange : o.range = r) (h : ∀ c ∈ o.parts, c.FitsIn r) : o.FitsIn r := by
  subst hrange
  exact ⟨.inr (.refl _), .node (fun c hc => (h c hc).range) fun c hc => (h c hc).nested⟩

theorem FitsIn.part (h : o.FitsIn r) (hc : c ∈ o.parts) : c.FitsIn r := by
  obtain ⟨hranges, hparts⟩ := h.nested
  rcases h.range with hgap | hrange
  · rw [hgap] at hc
    simp [parts, Stmt.outline] at hc
  · exact (FitsIn.mk (hranges c hc) (hparts c hc)).mono hrange

theorem fitsIn_placeholder (r : Range) : (Stmt.empty .zero).outline.FitsIn r := by
  have hparts : (Stmt.empty .zero).outline.parts = [] := by simp [parts, Stmt.outline]
  exact ⟨.inl rfl, .node (by simp [hparts]) (by simp [hparts])⟩

/-- The node is put together from these, which make up its fields in some order. -/
def Wraps (o : Outline) (r : Range) (os : List Outline) : Prop :=
  o.kind ≠ .error ∧ (o.kind = .comment → os = []) ∧ o.range = r ∧ ∀ c, c ∈ o.parts ↔ c ∈ os

@[simp] theorem wraps_iff (k : NodeKind) (r r' : Range) (fs : List (String × FieldValue)) (os : List Outline) :
    (⟨k, r, fs⟩ : Outline).Wraps r' os ↔
      k ≠ .error ∧ (k = .comment → os = []) ∧ r = r' ∧ ∀ c, (∃ f ∈ fs, c ∈ f.2.parts) ↔ c ∈ os := by
  simp [Wraps, parts]

end Outline

/-- Trees that make up another one, or are it: they have the same errors and lie where it does. -/
structure Outline.Members (o : Outline) (os : List Outline) : Prop where
  intact : (∀ c ∈ os, c.Intact) ↔ o.Intact
  fits : ∀ r, o.FitsIn r → ∀ c ∈ os, c.FitsIn r

theorem Outline.Members.self (o : Outline) : o.Members [o] := ⟨by simp, by simp⟩

theorem Outline.Members.parts {o : Outline} (hkind : o.kind ≠ .error ∧ o.kind ≠ .comment) :
    o.Members o.parts :=
  ⟨(intact_iff_parts hkind.1 fun h => absurd h hkind.2).symm, fun _ h _ => h.part⟩

theorem Expr.outline_members (e : Expr) : e.outline.Members (e.members.map Expr.outline) := by
  cases e with
  | sequence r es =>
    simpa [Expr.members, Outline.parts, Expr.outline] using
      Outline.Members.parts (o := (Expr.sequence r es).outline) (by simp [Expr.outline])
  | _ => exact .self _

theorem Stmt.outline_members (s : Stmt) : s.outline.Members (s.members.map Stmt.outline) := by
  cases s with
  | block r ss =>
    simpa [Stmt.members, Outline.parts, Stmt.outline] using
      Outline.Members.parts (o := (Stmt.block r ss).outline) (by simp [Stmt.outline])
  | _ => exact .self _

end Trees

namespace Reading

inductive Manner where
  | statement
  | expression

structure Taken where
  manner : Manner
  node : Reading

def asStmt (r : Reading) : Taken := ⟨.statement, r⟩

def asExpr (r : Reading) : Taken := ⟨.expression, r⟩

section Takes

/-! What the nodes of each type take. -/

variable (r : Reading)

def operand (f : String) : List Taken := (r.field? f).toList.map asExpr

def bodyTakes : List Taken := (r.field? "body").toList.map asStmt

def statementsTake (cs : List Reading) : List Taken := (cs.filter isStatement).map asStmt

def parametersTake (list : Option Reading) : List Taken :=
  ((partsOf list).filter fun c => parameterTypes.contains c.type).flatMap (operand · "default_value")

def argumentsTake (list : Option Reading) : List Taken := ((partsOf list).filterMap argument?).map asExpr

def creationTakes : List Taken :=
  match r.parts with
  | [] => []
  | c :: cs =>
    if c.type == "anonymous_class" then []
    else c.asExpr :: argumentsTake ((c :: cs).find? fun c => c.type == "arguments")

def elementTakes : List Taken :=
  match r.parts with
  | [v] =>
    if v.type == "variadic_unpacking" || v.type == "by_ref" then v.parts.getLast?.toList.map asExpr
    else [v.asExpr]
  | [k, v] => [v.asExpr, k.asExpr]
  | _ => []

def closureTakes : List Taken :=
  ((r.field? "body").filter fun b => b.type == "compound_statement").toList.map asStmt ++
    parametersTake (r.field? "parameters")

def exprTakes : List Taken :=
  if r.mark.missing then []
  else
    match r.type with
    | "binary_expression" | "assignment_expression" | "reference_assignment_expression"
    | "augmented_assignment_expression" => r.operand "left" ++ r.operand "right"
    | "unary_op_expression" => r.parts.getLast?.toList.map asExpr
    | "update_expression" | "parenthesized_expression" => r.parts.head?.toList.map asExpr
    | "conditional_expression" => r.operand "condition" ++ r.operand "body" ++ r.operand "alternative"
    | "function_call_expression" => r.operand "function" ++ argumentsTake (r.field? "arguments")
    | "object_creation_expression" => r.creationTakes
    | "array_creation_expression" =>
      (r.parts.filter fun c => c.type == "array_element_initializer").flatMap elementTakes
    | "cast_expression" => (r.field? "value" <|> r.parts.getLast?).toList.map asExpr
    | "subscript_expression" => (r.parts.take 2).map asExpr
    | "sequence_expression" => r.parts.map asExpr
    | "match_expression" => (r.field? "condition" <|> r.parts.head?).toList.map asExpr
    | "anonymous_function" | "anonymous_function_creation_expression" | "arrow_function" => r.closureTakes
    | _ => []

def clauses (type : String) (cs : List Reading) : List Reading :=
  cs.filter fun c => c.isNamed && c.type == type

def elseIfTakes : List Taken := r.operand "condition" ++ r.bodyTakes

def elseTakes : List Taken := (r.field? "body" <|> r.parts.head?).toList.map asStmt

/-- Of several else clauses the last counts. -/
def ifClausesTake (cs : List Reading) : List Taken :=
  (clauses "else_if_clause" cs).flatMap elseIfTakes ++
    (clauses "else_clause" cs).getLast?.toList.flatMap elseTakes

def forTakes (cs : List Reading) : List Taken :=
  ((cs.takeWhile fun c => c.type != ")").filter fun c => c.type != ";" && c.isPart).map asExpr ++
    statementsTake ((cs.dropWhile fun c => c.type != ")").drop 1)

/-- The node that a `foreach` loop gives its values to, below the sign of a reference. -/
def bound? : Option Reading := if r.type == "by_ref" then r.parts.getLast? else some r

def bindingTakes : List Taken :=
  if r.type == "pair" then
    r.parts.head?.toList.map asExpr ++ (r.parts.getLast?.bind bound?).toList.map asExpr
  else r.bound?.toList.map asExpr

def foreachTakes : List Taken :=
  match (r.childrenBesides "body").filter isPart with
  | subject :: binding :: rest =>
    subject.asExpr :: binding.bindingTakes ++ (r.field? "body" <|> rest.getLast?).toList.map asStmt
  | _ => []

def caseTakes : List Taken :=
  if r.type == "case_statement" then r.operand "value" ++ statementsTake (r.childrenBesides "value")
  else if r.type == "default_statement" then statementsTake r.children
  else []

/-- Of several finally clauses the last counts. -/
def tryClausesTake (cs : List Reading) : List Taken :=
  (clauses "catch_clause" cs).flatMap bodyTakes ++
    (clauses "finally_clause" cs).getLast?.toList.flatMap bodyTakes

def functionTakes : List Taken := parametersTake (r.field? "parameters") ++ r.bodyTakes

def constantTakes : List Taken :=
  match r.parts with
  | _ :: value :: rest => [(rest.getLast?.getD value).asExpr]
  | _ => []

def stmtTakes : List Taken :=
  match r.type with
  | "expression_statement" | "return_statement" => r.parts.head?.toList.map asExpr
  | "compound_statement" => statementsTake r.children
  | "echo_statement" => r.parts.map asExpr
  | "if_statement" => r.operand "condition" ++ r.bodyTakes ++ ifClausesTake r.children
  | "while_statement" | "do_statement" => r.operand "condition" ++ r.bodyTakes
  | "for_statement" => forTakes r.children
  | "foreach_statement" => r.foreachTakes
  | "switch_statement" => r.operand "condition" ++ (partsOf (r.field? "body")).flatMap caseTakes
  | "try_statement" => r.bodyTakes ++ tryClausesTake r.children
  | "function_definition" => r.functionTakes
  | "class_declaration" | "interface_declaration" =>
    ((partsOf (r.field? "body")).filter fun c => c.type == "method_declaration").flatMap functionTakes
  | "namespace_definition" => (r.field? "body").toList.flatMap fun b => statementsTake b.children
  | "const_declaration" => (r.parts.filter fun c => c.type == "const_element").flatMap constantTakes
  | _ => []

end Takes

namespace Taken

def takes : Taken → List Taken
  | ⟨.statement, r⟩ => r.stmtTakes
  | ⟨.expression, r⟩ => r.exprTakes

/-- The node itself is an error: one of the source, a missing part, or a number with wrong digits. -/
def isError : Taken → Bool
  | ⟨.statement, r⟩ => r.type == "ERROR"
  | ⟨.expression, r⟩ =>
    r.mark.missing || r.type == "ERROR" || (r.type == "integer" && (Literal.int? r.text).isNone)

def Reads : Taken → Prop
  | ⟨.statement, r⟩ => ∃ s, r.stmt = .ok s
  | ⟨.expression, r⟩ => ∃ e, r.expr = .ok e

def Intact : Taken → Prop
  | ⟨.statement, r⟩ => ∀ s, r.stmt = .ok s → s.outline.Intact
  | ⟨.expression, r⟩ => ∀ e, r.expr = .ok e → e.outline.Intact

def Fits : Taken → Prop
  | ⟨.statement, r⟩ => ∀ s, r.stmt = .ok s → s.outline.FitsIn r.range
  | ⟨.expression, r⟩ => ∀ e, r.expr = .ok e → e.outline.FitsIn r.range

end Taken

inductive Below (r : Reading) : Reading → Prop where
  | child {c : Reading} (h : c ∈ r.children) : Below r c
  | deeper {c d : Reading} (h : Below r c) (hd : d ∈ c.children) : Below r d

section Below

variable {r c d : Reading}
variable {f : String}

theorem Below.trans (h : Below r c) (hd : Below c d) : Below r d := by
  induction hd with
  | child hd => exact .deeper h hd
  | deeper _ hd ih => exact .deeper ih hd

theorem Below.sizeOf_lt (h : Below r c) : sizeOf c < sizeOf r := by
  have hchild : ∀ {a b : Reading}, b ∈ a.children → sizeOf b < sizeOf a := by
    rintro ⟨m, cs, st, ex⟩ b hb
    have hlist : sizeOf b < sizeOf cs := sizeOf_lt_of_mem hb
    simp only [Reading.mk.sizeOf_spec]
    omega
  induction h with
  | child h => exact hchild h
  | deeper _ hd ih => exact Nat.lt_trans (hchild hd) ih

theorem Below.part (h : c ∈ r.parts) : Below r c := .child (mem_filter.mp h).1

theorem Below.field (h : c ∈ r.field? f) : Below r c := .child (mem_of_find?_eq_some h)

theorem below_orElse {o o' : Option Reading} (ho : ∀ c ∈ o, Below r c) (ho' : ∀ c ∈ o', Below r c) :
    ∀ c ∈ (o <|> o'), Below r c := by
  cases o with
  | none => exact ho'
  | some d => exact ho

theorem below_field_orElse {o : Option Reading} (ho : ∀ c ∈ o, c ∈ r.parts) :
    ∀ c ∈ (r.field? f <|> o), Below r c :=
  below_orElse (fun _ => .field) fun c hc => .part (ho c hc)

end Below

/-- Every node at or below the node lies in the range of the one it is a child of. -/
def Spans (r : Reading) : Prop :=
  ∀ n, n = r ∨ Below r n → ∀ c ∈ n.children, c.range.Within n.range

theorem Spans.of_below {r c : Reading} (h : r.Spans) (hc : Below r c) : c.Spans := by
  rintro n (rfl | hn)
  · exact h n (.inr hc)
  · exact h n (.inr (hc.trans hn))

theorem Spans.within {r c : Reading} (h : r.Spans) (hc : Below r c) : c.range.Within r.range := by
  induction hc with
  | child hc => exact h r (.inl rfl) _ hc
  | deeper hc hd ih => exact (h _ (.inr hc) _ hd).trans ih

/-- The taken nodes stand below the node and can be read. The trees are put together from what they are read
as: they have no syntax errors but those in what is taken, and lie in the range of the node. -/
structure Shows (r : Reading) (ts : List Taken) (os : List Outline) : Prop where
  below : ∀ t ∈ ts, Below r t.node
  reads : ∀ t ∈ ts, t.Reads
  intact : (∀ o ∈ os, o.Intact) ↔ ∀ t ∈ ts, t.Intact
  fits : r.Spans → (∀ t ∈ ts, t.Fits) → ∀ o ∈ os, o.FitsIn r.range

namespace Shows

variable {r c : Reading} {ts us : List Taken} {os os' : List Outline} {o : Outline}

theorem nil : r.Shows [] [] := ⟨by simp, by simp, by simp, by simp⟩

theorem append (h : r.Shows ts os) (hu : r.Shows us os') : r.Shows (ts ++ us) (os ++ os') where
  below := forall_mem_append.mpr ⟨h.below, hu.below⟩
  reads := forall_mem_append.mpr ⟨h.reads, hu.reads⟩
  intact := by rw [forall_mem_append, h.intact, hu.intact, forall_mem_append]
  fits hr ht := by
    rw [forall_mem_append] at ht ⊢
    exact ⟨h.fits hr ht.1, hu.fits hr ht.2⟩

/-- The trees give way to others with the same errors that lie in no wider range. -/
theorem congr (h : r.Shows ts os) (hintact : (∀ o ∈ os', o.Intact) ↔ ∀ o ∈ os, o.Intact)
    (hfits : (∀ o ∈ os, o.FitsIn r.range) → ∀ o ∈ os', o.FitsIn r.range) : r.Shows ts os' :=
  ⟨h.below, h.reads, hintact.trans h.intact, fun hr ht => hfits (h.fits hr ht)⟩

theorem of_mem_iff (h : r.Shows ts os) (hmem : ∀ o, o ∈ os' ↔ o ∈ os) : r.Shows ts os' :=
  h.congr (by simp only [hmem]) (by simp only [hmem, imp_self])

theorem above (h : c.Shows ts os) (hc : Below r c) : r.Shows ts os :=
  ⟨fun t ht => hc.trans (h.below t ht), h.reads, h.intact,
    fun hr ht o ho => (h.fits (hr.of_below hc) ht o ho).mono (hr.within hc)⟩

theorem expr {e : Expr} (hc : Below r c) (h : c.expr = .ok e) : r.Shows [c.asExpr] [e.outline] where
  below := by simpa [asExpr] using hc
  reads := by simpa [asExpr, Taken.Reads] using ⟨e, h⟩
  intact := by simp [asExpr, Taken.Intact, h]
  fits hr ht := by
    have hfits : e.outline.FitsIn c.range := ht _ mem_cons_self e h
    simpa using hfits.mono (hr.within hc)

theorem stmt {s : Stmt} (hc : Below r c) (h : c.stmt = .ok s) : r.Shows [c.asStmt] [s.outline] where
  below := by simpa [asStmt] using hc
  reads := by simpa [asStmt, Taken.Reads] using ⟨s, h⟩
  intact := by simp [asStmt, Taken.Intact, h]
  fits hr ht := by
    have hfits : s.outline.FitsIn c.range := ht _ mem_cons_self s h
    simpa using hfits.mono (hr.within hc)

theorem wrap (h : r.Shows ts os) (ho : o.Wraps r.range os) : r.Shows ts [o] := by
  obtain ⟨hkind, hcomment, hrange, hparts⟩ := ho
  have hempty : o.kind = .comment → o.parts = [] := fun hk =>
    eq_nil_iff_forall_not_mem.mpr fun c hc => by simpa [hcomment hk] using (hparts c).mp hc
  refine h.congr ?_ fun hos => ?_
  · simp [Outline.intact_iff_parts hkind hempty, hparts]
  · simpa using Outline.FitsIn.of_parts hrange fun c hc => hos c ((hparts c).mp hc)

theorem leaves (h : ∀ o ∈ os, r.Shows [] [o]) : r.Shows [] os where
  below := by simp
  reads := by simp
  intact := ⟨by simp, fun _ o ho => (h o ho).intact.mpr (by simp) o mem_cons_self⟩
  fits hr _ o ho := (h o ho).fits hr (by simp) o mem_cons_self

theorem ofVariable (hc : Below r c) : r.Shows [] [c.variableName.outline] :=
  above (nil.wrap (by simp [variableName, VariableName.outline])) hc

theorem exprMembers {es : List Expr} (h : r.Shows ts (es.map Expr.outline)) :
    r.Shows ts ((es.flatMap Expr.members).map Expr.outline) := by
  rw [map_flatMap]
  refine h.congr ?_ ?_
  · rw [forall_mem_map, forall_mem_flatMap]
    exact forall₂_congr fun e _ => e.outline_members.intact
  · rw [forall_mem_map, forall_mem_flatMap]
    exact fun hos e he => e.outline_members.fits _ (hos e he)

theorem stmtMembers {s : Stmt} (h : r.Shows ts [s.outline]) : r.Shows ts (s.members.map Stmt.outline) :=
  h.congr (by simpa using s.outline_members.intact) (by simpa using s.outline_members.fits r.range)

end Shows

section Clauses

variable {c : Reading} {cs : List Reading}

theorem clauses_cons {type : String} (cs : List Reading) :
    clauses type (c :: cs) =
      if c.isNamed && c.type == type then c :: clauses type cs else clauses type cs := by
  simp only [clauses, filter_cons]

/-- Reads the clauses of two types, of which there may be many of the first type, and only the last counts of
the second. -/
def clausePair {α β : Type} (first second : String) (f : Reading → Except BuildError α)
    (g : Reading → Except BuildError β) : List Reading → Except BuildError (List α × Option β)
  | [] => .ok ([], none)
  | c :: cs =>
    if c.isNamed && c.type == first then do
      let a ← f c
      let (as, last) ← clausePair first second f g cs
      return (a :: as, last)
    else if c.isNamed && c.type == second then do
      let b ← g c
      let (as, last) ← clausePair first second f g cs
      return (as, last <|> some b)
    else clausePair first second f g cs

/-- There is a last clause of the second type if there is any. -/
theorem clausePair_last {α β : Type} {first second : String} (hne : first ≠ second)
    {f : Reading → Except BuildError α} {g : Reading → Except BuildError β} {p : List α × Option β}
    (h : clausePair first second f g cs = .ok p) : p.2 = none ↔ clauses second cs = [] := by
  induction cs generalizing p with
  | nil =>
    cases h
    simp [clauses]
  | cons c cs ih =>
    unfold clausePair at h
    rw [clauses_cons]
    split at h
    · next hc =>
      have htype : c.type = first := by simp_all
      simp only [bind_eq_ok_iff] at h
      obtain ⟨a, -, q, hq, ⟨⟩⟩ := h
      simpa [htype, hne] using ih hq
    · split at h
      · next hc =>
        simp only [bind_eq_ok_iff] at h
        obtain ⟨b, -, q, -, ⟨⟩⟩ := h
        rw [if_pos hc]
        cases q.2 <;> simp
      · next hc =>
        rw [if_neg hc]
        exact ih h

theorem ifClauses_eq (cs : List Reading) :
    ifClauses cs = clausePair "else_if_clause" "else_clause" elseIf else_ cs := by
  induction cs with
  | nil => rfl
  | cons c cs ih => simp only [ifClauses, clausePair, ih]

def ForParts.outlines (p : ForParts) : List Outline :=
  p.groups.1.map Expr.outline ++ p.groups.2.1.map Expr.outline ++ p.groups.2.2.map Expr.outline ++
    p.body.map Stmt.outline

theorem ForParts.mem_outlines_addTo (slot : Nat) (es : List Expr) (p : ForParts) (o : Outline) :
    o ∈ (p.addTo slot es).outlines ↔ o ∈ es.map Expr.outline ++ p.outlines := by
  rcases slot with _ | _ | slot <;>
    simp only [ForParts.addTo, ForParts.outlines, map_append, mem_append] <;> grind

def bindTo (key : Option Expr) (value : Reading) : Except BuildError (Option Expr × Reading × Bool) :=
  match value.bound? with
  | some v => .ok (key, v, value.type == "by_ref")
  | none => .error .emptyBinding

theorem foreachBinding_eq (r : Reading) : r.foreachBinding =
    if r.type == "pair" then
      match r.parts.head?, r.parts.getLast? with
      | some k, some v => k.expr >>= fun e => bindTo (some e) v
      | _, _ => .error .emptyBinding
    else bindTo none r := by
  have hvalue : ∀ (key : Option Expr) (value : Reading), bindTo key value =
      if value.type == "by_ref" then
        match value.parts.getLast? with
        | some v => .ok (key, v, true)
        | none => .error .emptyBinding
      else .ok (key, value, false) := by
    intro key value
    unfold bindTo bound?
    cases value.type == "by_ref" with
    | true => rfl
    | false => rfl
  simp only [hvalue]
  rfl

def finally_ (r : Reading) : Except BuildError Stmt := do
  let bodyField ← r.required "body"
  bodyField.blockBody

theorem tryClauses_eq (cs : List Reading) :
    tryClauses cs = clausePair "catch_clause" "finally_clause" catch_ finally_ cs := by
  induction cs with
  | nil => rfl
  | cons c cs ih => simp only [tryClauses, clausePair, ih, finally_, bind_assoc]

end Clauses

section Errors

/-- The node alone is the cause of the error. -/
def Raises (n : Reading) : BuildError → Prop
  | .unexpected _ _ _ => False
  | .integerTooLarge =>
    n.type = "integer" ∧ ∃ i, Literal.int? n.text = some i ∧ Number.maxInt < i ∧ Number.ofInt? i = none
  | .notFloat text =>
    n.type = "float" ∧ Literal.float? n.text = none ∧ text = String.ofList (n.text.toList.filter (· ≠ '_'))
  | .emptyBinding => (n.type = "by_ref" ∨ n.type = "pair") ∧ n.parts = []

/-- Something is missing, or a node at or below this one is the cause of the error. -/
def Explains (r : Reading) (e : BuildError) : Prop :=
  (∃ range expected found, e = .unexpected range expected found) ∨ ∃ n, (n = r ∨ Below r n) ∧ n.Raises e

theorem Explains.above {r c : Reading} {e : BuildError} (h : c.Explains e) (hc : Below r c) : r.Explains e := by
  refine h.imp_right ?_
  rintro ⟨n, rfl | hn, hraises⟩
  · exact ⟨n, .inr hc, hraises⟩
  · exact ⟨n, .inr (hc.trans hn), hraises⟩

structure Explained (r : Reading) : Prop where
  expr : ∀ c, Below r c → ∀ e, c.expr = .error e → c.Explains e
  stmt : ∀ c, Below r c → ∀ e, c.stmt = .error e → c.Explains e

theorem Explained.of_below {r c : Reading} (h : r.Explained) (hc : Below r c) : c.Explained :=
  ⟨fun d hd => h.expr d (hc.trans hd), fun d hd => h.stmt d (hc.trans hd)⟩

end Errors

/-- A step in the reading of a node comes to something put together from what is taken, or to an error that is
explained. -/
def Comes {α : Type} (r : Reading) (ts : List Taken) (f : α → List Outline) : Except BuildError α → Prop
  | .ok a => r.Shows ts (f a)
  | .error e => r.Explains e

abbrev Builds {α : Type} (r : Reading) (ts : List Taken) (f : α → Outline) (x : Except BuildError α) : Prop :=
  r.Comes ts (fun a => [f a]) x

namespace Comes

variable {α β : Type} {r c : Reading} {ts us : List Taken} {f : α → List Outline} {g : β → List Outline}
variable {x : Except BuildError α} {k : α → Except BuildError β} {xs : List Reading}

theorem unexpected {range : Range} {expected found : String} :
    r.Comes ts f (.error (.unexpected range expected found)) := .inl ⟨_, _, _, rfl⟩

theorem bind (hx : r.Comes ts f x) (h : ∀ a, r.Shows ts (f a) → r.Comes us g (k a)) :
    r.Comes us g (x >>= k) := by
  cases x with
  | error e => exact hx
  | ok a => exact h a hx

theorem map {m : α → β} (hx : r.Comes ts f x) (h : ∀ a, r.Shows ts (f a) → r.Shows us (g (m a))) :
    r.Comes us g (x.map m) := by
  cases x with
  | error e => exact hx
  | ok a => exact h a hx

theorem below (hr : r.Explained) (hc : Below r c) (h : c.Explained → c.Comes ts f x) : r.Comes ts f x := by
  have hx := h (hr.of_below hc)
  cases x with
  | error e => exact Explains.above hx hc
  | ok a => exact Shows.above hx hc

theorem required {k : Reading → Except BuildError α} {name : String}
    (h : ∀ c, r.field? name = some c → r.Comes ts f (k c)) : r.Comes ts f (r.required name >>= k) := by
  unfold Reading.required
  split
  · next c hc => exact h c hc
  · exact .unexpected

theorem operator {k : String → Except BuildError α} (h : ∀ op, r.Comes ts f (k op)) :
    r.Comes ts f (r.operator >>= k) := by
  unfold Reading.operator
  split
  · exact h _
  · split
    · exact h _
    · exact .unexpected

/-- Reading a list one by one shows all that comes out. -/
theorem mapM {m : Reading → Except BuildError α} {takes : Reading → List Taken}
    (h : ∀ x ∈ xs, r.Comes (takes x) f (m x)) : r.Comes (xs.flatMap takes) (List.flatMap f) (xs.mapM m) := by
  induction xs with
  | nil => exact Shows.nil
  | cons x xs ih =>
    rw [mapM_cons]
    refine .bind (h x mem_cons_self) fun a ha => ?_
    refine .bind (ih fun x hx => h x (mem_cons_of_mem _ hx)) fun as has => ?_
    exact ha.append has

theorem mapM_one {f : α → Outline} {m : Reading → Except BuildError α} {takes : Reading → List Taken}
    (h : ∀ x ∈ xs, r.Builds (takes x) f (m x)) :
    r.Comes (xs.flatMap takes) (List.map f) (xs.mapM m) := by
  have hmap : List.map f = List.flatMap fun a => [f a] := funext fun as => map_eq_flatMap
  rw [hmap]
  exact .mapM h

end Comes

section Parts

/-! Parts that many constructs have. -/

variable {r c : Reading} {o : Option Reading} {xs : List Reading} (hr : r.Explained)

include hr

theorem comes_expr (hc : Below r c) : r.Builds [c.asExpr] Expr.outline c.expr := by
  cases he : c.expr with
  | error e => exact (hr.expr c hc e he).above hc
  | ok e => exact .expr hc he

theorem comes_stmt (hc : Below r c) : r.Builds [c.asStmt] Stmt.outline c.stmt := by
  cases hs : c.stmt with
  | error e => exact (hr.stmt c hc e hs).above hc
  | ok s => exact .stmt hc hs

theorem comes_operand {f : String} (hc : r.field? f = some c) :
    r.Builds (r.operand f) Expr.outline c.expr := by
  simp only [operand, hc]
  exact comes_expr hr (.field hc)

theorem comes_exprs (hxs : ∀ x ∈ xs, Below r x) :
    r.Comes (xs.map asExpr) (List.map Expr.outline) (xs.mapM (·.expr)) := by
  rw [map_eq_flatMap]
  exact .mapM_one fun x hx => comes_expr hr (hxs x hx)

theorem comes_statements (hxs : ∀ x ∈ xs, Below r x) :
    r.Comes (statementsTake xs) (List.map Stmt.outline) (statements xs) := by
  rw [statementsTake, map_eq_flatMap]
  exact .mapM_one fun x hx => comes_stmt hr (hxs x (mem_filter.mp hx).1)

theorem comes_exprOf (ho : ∀ c ∈ o, Below r c) :
    r.Builds (o.toList.map asExpr) Expr.outline (r.exprOf o) := by
  cases o with
  | none => exact .unexpected
  | some c => exact comes_expr hr (ho c rfl)

theorem comes_optionalExpr (ho : ∀ c ∈ o, Below r c) :
    r.Comes (o.toList.map asExpr) (fun x => x.toList.map Expr.outline) (optionalExpr o) := by
  cases o with
  | none => exact Shows.nil
  | some c => exact .map (comes_expr hr (ho c rfl)) fun e he => he

theorem comes_body (ho : ∀ c ∈ o, Below r c) :
    r.Builds (o.toList.map asStmt) Stmt.outline (body o) := by
  cases o with
  | none =>
    refine Shows.nil.congr ?_ fun _ => ?_
    · simp [Outline.Intact, Stmt.outline]
    · simpa using Outline.fitsIn_placeholder r.range
  | some c => exact comes_stmt hr (ho c rfl)

theorem comes_blockBody (hc : Below r c) :
    r.Builds [c.asStmt] Stmt.outline c.blockBody := by
  cases hs : c.stmt with
  | error e =>
    rw [blockBody, hs]
    exact (hr.stmt c hc e hs).above hc
  | ok s =>
    have hbare : r.Builds [c.asStmt] Stmt.outline (.ok (.block c.range [s])) := by
      obtain ⟨hbelow, hreads, hintact, -⟩ := Shows.stmt hc hs
      refine ⟨hbelow, hreads, .trans ?_ hintact, fun hspans ht => ?_⟩
      · simp [Outline.intact_iff_parts, Outline.parts, Stmt.outline]
      · have hfits : s.outline.FitsIn c.range := ht _ mem_cons_self s hs
        have hblock : (Stmt.block c.range [s]).outline.FitsIn c.range :=
          .of_parts (by simp [Stmt.outline]) (by simpa [Outline.parts, Stmt.outline] using hfits)
        simpa using hblock.mono (hspans.within hc)
    rw [blockBody, hs]
    cases s with
    | block b ss => exact .stmt hc hs
    | _ => exact hbare

theorem comes_optionalBlock (ho : ∀ c ∈ o, Below r c) :
    r.Comes (o.toList.map asStmt) (fun x => x.toList.map Stmt.outline) (optionalBlock o) := by
  cases o with
  | none => exact Shows.nil
  | some c => exact .map (comes_blockBody hr (ho c rfl)) fun s hs => hs

omit hr in
theorem below_partsOf (ho : ∀ c ∈ o, Below r c) : ∀ c ∈ partsOf o, Below r c := by
  cases o with
  | none => simp [partsOf]
  | some d => exact fun c hc => (ho d rfl).trans (.part hc)

theorem comes_parameter :
    r.Builds (r.operand "default_value") Parameter.outline r.parameter := by
  refine .required fun name _ => .bind (comes_optionalExpr hr fun _ => .field) fun d hd => ?_
  exact hd.wrap (by simp [Parameter.outline])

theorem comes_parameters (ho : ∀ c ∈ o, Below r c) :
    r.Comes (parametersTake o) (List.map Parameter.outline) (parameters o) := by
  cases o with
  | none => exact Shows.nil
  | some c =>
    exact .mapM_one fun x hx => .below hr (below_partsOf ho x (mem_filter.mp hx).1) comes_parameter

theorem comes_arguments (ho : ∀ c ∈ o, Below r c) :
    r.Comes (argumentsTake o) (List.map Expr.outline) (arguments o) := by
  cases o with
  | none => exact Shows.nil
  | some c =>
    refine comes_exprs hr fun a ha => ?_
    obtain ⟨x, hx, ha⟩ := mem_filterMap.mp ha
    have hx := below_partsOf ho x hx
    unfold argument? at ha
    split at ha
    · exact hx.trans (.part (mem_of_getLast? ha))
    · cases ha
      exact hx

end Parts

end Reading

end PhpFlow
