import PhpFlow.Syntax.Outline

/-!
# The nodes of a tree

What is true of the kind of every node in a tree is true of the node at its root and in the trees of its
fields. For each construct this says which parts it has to be true of.
-/
namespace PhpFlow

def FieldValue.parts : FieldValue → List Outline
  | .node o => [o]
  | .nodes os => os
  | _ => []

def Outline.parts (o : Outline) : List Outline := o.fields.flatMap fun f => f.2.parts

namespace FieldValue

@[simp] theorem parts_absent : absent.parts = [] := rfl

@[simp] theorem parts_text (s : String) : (text s).parts = [] := rfl

@[simp] theorem parts_ofText? (s : Option String) : (ofText? s).parts = [] := by cases s <;> rfl

@[simp] theorem parts_integer (n : Int) : (integer n).parts = [] := rfl

@[simp] theorem parts_float (x : Float) : (float x).parts = [] := rfl

@[simp] theorem parts_flag (b : Bool) : (flag b).parts = [] := rfl

@[simp] theorem parts_texts (ss : List String) : (texts ss).parts = [] := rfl

@[simp] theorem parts_node (o : Outline) : (node o).parts = [o] := rfl

@[simp] theorem parts_nodes (os : List Outline) : (nodes os).parts = os := rfl

end FieldValue

@[simp] theorem parts_exprField (e : Option Expr) : (exprField e).parts = e.toList.map Expr.outline := by
  cases e <;> simp [exprField]

@[simp] theorem parts_stmtField (s : Option Stmt) : (stmtField s).parts = s.toList.map Stmt.outline := by
  cases s <;> simp [stmtField]

@[simp] theorem parts_elseField (e : Option Else) : (elseField e).parts = e.toList.map Else.outline := by
  cases e <;> simp [elseField]

@[simp] theorem exprOutlines_eq (es : List Expr) : exprOutlines es = es.map Expr.outline := by
  induction es <;> simp [exprOutlines, *]

@[simp] theorem stmtOutlines_eq (ss : List Stmt) : stmtOutlines ss = ss.map Stmt.outline := by
  induction ss <;> simp [stmtOutlines, *]

@[simp] theorem elementOutlines_eq (es : List Element) : elementOutlines es = es.map Element.outline := by
  induction es <;> simp [elementOutlines, *]

@[simp] theorem parameterOutlines_eq (ps : List Parameter) : parameterOutlines ps = ps.map Parameter.outline := by
  induction ps <;> simp [parameterOutlines, *]

@[simp] theorem elseIfOutlines_eq (cs : List ElseIf) : elseIfOutlines cs = cs.map ElseIf.outline := by
  induction cs <;> simp [elseIfOutlines, *]

@[simp] theorem caseOutlines_eq (cs : List Case) : caseOutlines cs = cs.map Case.outline := by
  induction cs <;> simp [caseOutlines, *]

@[simp] theorem catchOutlines_eq (cs : List Catch) : catchOutlines cs = cs.map Catch.outline := by
  induction cs <;> simp [catchOutlines, *]

@[simp] theorem constantOutlines_eq (cs : List Constant) : constantOutlines cs = cs.map Constant.outline := by
  induction cs <;> simp [constantOutlines, *]

@[simp] theorem methodOutlines_eq (ms : List Method) : methodOutlines ms = ms.map Method.outline := by
  induction ms <;> simp [methodOutlines, *]

section Kinds

variable (P : NodeKind → Prop)

def Outline.Every (o : Outline) : Prop := ∀ n ∈ o.walk, P n.kind

instance [DecidablePred P] (o : Outline) : Decidable (o.Every P) :=
  inferInstanceAs (Decidable (∀ n ∈ o.walk, _))

/-- Comments are no part of the tree below a node. -/
def Outline.Passes (o : Outline) : Prop := o.kind ≠ .comment → o.Every P

@[inherit_doc Outline.Passes]
def Stmt.Every (s : Stmt) : Prop := s.outline.kind ≠ .comment → s.outline.Every P

theorem Outline.every_walkNodes (os : List Outline) :
    (∀ n ∈ walkNodes os, P n.kind) ↔ ∀ o ∈ os, o.Passes P := by
  induction os with
  | nil => simp [walkNodes]
  | cons o os ih =>
    rw [List.forall_mem_cons, ← ih]
    by_cases hk : o.kind = .comment
    · simp [walkNodes, Passes, hk]
    · rw [walkNodes, if_neg hk, List.forall_mem_append]
      exact and_congr_left' ⟨fun h _ => h, fun h => h hk⟩

theorem Outline.every_walkField (v : FieldValue) :
    (∀ n ∈ walkField v, P n.kind) ↔ ∀ o ∈ v.parts, o.Passes P := by
  cases v with
  | node o => by_cases hk : o.kind = .comment <;> simp [walkField, Passes, Outline.Every, hk]
  | nodes os => exact every_walkNodes P os
  | _ => simp [walkField]

theorem Outline.every_iff (k : NodeKind) (r : Range) (fs : List (String × FieldValue)) :
    (⟨k, r, fs⟩ : Outline).Every P ↔ P k ∧ ∀ f ∈ fs, ∀ o ∈ f.2.parts, o.Passes P := by
  have hfields : (∀ n ∈ walkFields fs, P n.kind) ↔ ∀ f ∈ fs, ∀ o ∈ f.2.parts, o.Passes P := by
    induction fs with
    | nil => simp [walkFields]
    | cons f fs ih => rw [walkFields, List.forall_mem_append, ih, every_walkField, List.forall_mem_cons]
  rw [Outline.Every, walk, List.forall_mem_cons, hfields]

@[simp] theorem Outline.passes_iff (k : NodeKind) (r : Range) (fs : List (String × FieldValue)) :
    (⟨k, r, fs⟩ : Outline).Passes P ↔ (k ≠ .comment → P k ∧ ∀ f ∈ fs, ∀ o ∈ f.2.parts, o.Passes P) := by
  rw [Passes, Outline.every_iff]

variable {P} in
theorem Outline.Passes.kind {o : Outline} (h : o.Passes P) (hk : o.kind ≠ .comment) : P o.kind := by
  obtain ⟨k, r, fs⟩ := o
  exact ((Outline.every_iff P k r fs).mp (h hk)).1

end Kinds

theorem Expr.outline_kind_ne_comment (e : Expr) : e.outline.kind ≠ .comment := by
  cases e <;> simp [Expr.outline]

end PhpFlow
