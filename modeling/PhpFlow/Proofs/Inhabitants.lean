import PhpFlow.Proofs.TypeKeys
import PhpFlow.Symbol
import PhpFlow.Value.Coercion

/-!
# The values of a type

Which values a type admits, down to the elements of arrays. Putting atoms in order keeps the values, since
an atom is left out only for one like it, and what a type says about the truth of its values holds.
-/
namespace PhpFlow

def isNameLike (s : String) : Bool :=
  match s.toList with
  | [] => false
  | c :: _ => !c.isDigit

namespace Value

def mayBeCalled : Value → Bool
  | object _ | array [_, _] => true
  | string s => isNameLike s
  | _ => false

def entries? : Value → Option (List (ArrayKey × Value))
  | array es => some es
  | _ => none

def className? : Value → Option QualifiedName
  | object c => some c
  | _ => none

def text? : Value → Option String
  | string s => some s
  | _ => none

end Value

def ArrayKey.toValue : ArrayKey → Value
  | .int n => .int n
  | .text s => .string s

/-- Of the values that constants have none is a resource. -/
def Primitive.admits : Primitive → Value → Bool
  | null, .null | void, .null => true
  | int, .int _ | float, .float _ | string, .string _ | bool, .bool _ => true
  | literalTrue, .bool b => b
  | literalFalse, .bool b => !b
  | array, .array _ | iterable, .array _ | iterable, .object _ | object, .object _ => true
  | callable, v => v.mayBeCalled
  | mixed, _ | unknown, _ => true
  | _, _ => false

mutual

/-- The value may be of this type. Parameters of a class, and what a callable takes and gives, cannot be
seen in a value. -/
def Atom.admits (symbols : SymbolTable) : Atom → Value → Bool
  | .primitive p, v => p.admits v
  | .list u, v => v.entries?.any fun es => es.all fun e => u.admits symbols e.2
  | .map k u, v =>
    v.entries?.any fun es => es.all fun e => k.admits symbols e.1.toValue && u.admits symbols e.2
  | .shape fs, v => v.entries?.any (fieldsAdmit symbols fs)
  | .callable _ _, v => v.mayBeCalled
  | .named q _, v => v.className?.any fun c => c.key == q.key || symbols.derives c q
  | .generic b _, v => b.admits symbols v
  | .reference k _, v => if k = .classString then v.text?.any isNameLike else v.className?.isSome
  | .classConstant _ _, _ | .template _, _ => true

def TypeUnion.admits (symbols : SymbolTable) : TypeUnion → Value → Bool
  | ⟨as⟩, v => atomsAdmit symbols as v

def atomsAdmit (symbols : SymbolTable) : List Atom → Value → Bool
  | [], _ => false
  | a :: as, v => a.admits symbols v || atomsAdmit symbols as v

/-- A field that is not optional has to be there; other keys may be there as well. -/
def fieldsAdmit (symbols : SymbolTable) : List ShapeField → List (ArrayKey × Value) → Bool
  | [], _ => true
  | ⟨k, t, o⟩ :: fs, es =>
    (match Value.lookup? k es with
      | some v => t.admits symbols v
      | none => o) && fieldsAdmit symbols fs es

end

variable {symbols : SymbolTable}
variable {v : Value}

theorem atomsAdmit_iff {as : List Atom} : atomsAdmit symbols as v ↔ ∃ a ∈ as, a.admits symbols v := by
  induction as with
  | nil => simp [atomsAdmit]
  | cons a as ih => simp [atomsAdmit, ih]

theorem TypeUnion.admits_iff {u : TypeUnion} : u.admits symbols v ↔ ∃ a ∈ u.atoms, a.admits symbols v := by
  obtain ⟨as⟩ := u
  exact atomsAdmit_iff

mutual

theorem Atom.admits_congr (a b : Atom) (h : a.SameKey b) (v : Value) :
    a.admits symbols v = b.admits symbols v := by
  have halike := h.alike
  cases a with
  | primitive p =>
    cases halike
    rfl
  | list u =>
    cases halike with
    | @list _ u' hu =>
      have hcongr : u.admits symbols = u'.admits symbols := funext (u.admits_congr u' hu)
      rw [Atom.admits, Atom.admits, hcongr]
  | map k u =>
    cases halike with
    | @map _ k' _ u' hk hu =>
      have hkeys : k.admits symbols = k'.admits symbols := funext (k.admits_congr k' hk)
      have hvalues : u.admits symbols = u'.admits symbols := funext (u.admits_congr u' hu)
      rw [Atom.admits, Atom.admits, hkeys, hvalues]
  | shape fs =>
    cases halike with
    | @shape _ gs hfs =>
      have hcongr : fieldsAdmit symbols fs = fieldsAdmit symbols gs := funext (fieldsAdmit_congr fs gs hfs)
      rw [Atom.admits, Atom.admits, hcongr]
  | callable us r =>
    cases halike
    rw [Atom.admits, Atom.admits]
  | named q t =>
    cases halike with
    | named hq => simp only [Atom.admits, SymbolTable.derives, SymbolTable.derives?, hq]
  | generic c us =>
    cases halike with
    | @generic _ d _ _ hc _ =>
      rw [Atom.admits, Atom.admits]
      exact c.admits_congr d hc v
  | classConstant q c =>
    cases halike
    rw [Atom.admits, Atom.admits]
  | reference k t =>
    cases halike
    rw [Atom.admits, Atom.admits]
  | template n =>
    cases halike
    rfl
termination_by structural a

theorem TypeUnion.admits_congr (u w : TypeUnion) (h : u.SameKey w) (v : Value) :
    u.admits symbols v = w.admits symbols v := by
  have hatoms := h.atoms
  obtain ⟨as⟩ := u
  obtain ⟨bs⟩ := w
  exact atomsAdmit_congr as bs hatoms v
termination_by structural u

theorem atomsAdmit_congr (as bs : List Atom) (h : List.Forall₂ Atom.SameKey as bs) (v : Value) :
    atomsAdmit symbols as v = atomsAdmit symbols bs v := by
  cases as with
  | nil =>
    cases h
    rfl
  | cons a as =>
    cases h with
    | @cons _ b _ bs ha has =>
      rw [atomsAdmit, atomsAdmit, a.admits_congr b ha v, atomsAdmit_congr as bs has v]
termination_by structural as

theorem fieldsAdmit_congr (fs gs : List ShapeField) (h : List.Forall₂ ShapeField.Alike fs gs)
    (es : List (ArrayKey × Value)) : fieldsAdmit symbols fs es = fieldsAdmit symbols gs es := by
  cases fs with
  | nil =>
    cases h
    rfl
  | cons f fs =>
    cases h with
    | @cons _ g _ gs hf hfs =>
      obtain ⟨k, t, o⟩ := f
      obtain ⟨l, u, p⟩ := g
      obtain ⟨rfl, ht, rfl⟩ := hf
      have htype : t.admits symbols = u.admits symbols := funext (t.admits_congr u ht)
      rw [fieldsAdmit, fieldsAdmit, htype, fieldsAdmit_congr fs gs hfs es]
termination_by structural fs

end

/-- A union built from atoms admits what any of them does. -/
theorem TypeUnion.admits_ofList {as : List Atom} :
    (ofList as).admits symbols v ↔ ∃ a ∈ as, a.admits symbols v := by
  rw [admits_iff]
  constructor
  · rintro ⟨a, ha, hv⟩
    exact ⟨a, mem_ofList ha, hv⟩
  · rintro ⟨a, ha, hv⟩
    obtain ⟨b, hb, hsame⟩ := exists_mem_ofList ha
    exact ⟨b, hb, by rwa [← a.admits_congr b hsame v]⟩

theorem TypeUnion.admits_filter {u : TypeUnion} {p : Atom → Bool} :
    (u.filter p).admits symbols v ↔ ∃ a ∈ u.atoms, p a ∧ a.admits symbols v := by
  rw [filter, admits_ofList]
  simp [and_assoc]

theorem TypeUnion.admits_prim {p : Primitive} : (prim p).admits symbols v = p.admits v := by
  simp [prim, single, TypeUnion.admits, atomsAdmit, Atom.admits]

theorem truth_of_isNameLike {s : String} (h : isNameLike s) : (Value.string s).truth := by
  have hempty : s ≠ "" := by
    rintro rfl
    cases h
  have hzero : s ≠ "0" := by
    rintro rfl
    cases h
  simp [Value.truth, hempty, hzero]

theorem Value.truth_of_mayBeCalled (h : v.mayBeCalled) : v.truth := by
  unfold mayBeCalled at h
  split at h
  · rfl
  · rfl
  · exact truth_of_isNameLike h
  · cases h

/-- An array that lacks nothing of a shape with a field that is not optional is not empty. -/
theorem all_optional_of_fieldsAdmit_nil {fs : List ShapeField} (h : fieldsAdmit symbols fs []) :
    fs.all (·.optional) := by
  induction fs with
  | nil => rfl
  | cons f fs ih =>
    obtain ⟨k, t, o⟩ := f
    simp only [fieldsAdmit, Value.lookup?, Bool.and_eq_true] at h
    rw [List.all_cons, h.1, ih h.2]
    rfl

namespace Atom

/-- A true value of a type shows that the type can be true. -/
theorem canBeTrue_of_admits (a : Atom) {v : Value} (h : a.admits symbols v) (hv : v.truth) :
    a.canBeTrue := by
  cases a with
  | primitive p =>
    rw [admits] at h
    cases p with
    | null | void | literalFalse | never => cases v <;> simp_all [Primitive.admits, Value.truth]
    | _ => rfl
  | generic b us =>
    exact b.canBeTrue_of_admits h hv
  | _ => rfl

theorem canBeFalse_of_admits (a : Atom) {v : Value} (h : a.admits symbols v) (hv : v.truth = false) :
    a.canBeFalse := by
  cases a with
  | primitive p =>
    rw [admits] at h
    cases p with
    | literalTrue | object | resource | never => cases v <;> simp_all [Primitive.admits, Value.truth]
    | _ => rfl
  | shape fs =>
    rw [admits, Option.any_eq_true] at h
    obtain ⟨es, hes, hfs⟩ := h
    cases v with
    | array es' =>
      cases hes
      cases es with
      | nil => exact all_optional_of_fieldsAdmit_nil hfs
      | cons e es => cases hv
    | _ => cases hes
  | callable us r =>
    rw [Value.truth_of_mayBeCalled h] at hv
    cases hv
  | named q t =>
    rw [admits, Option.any_eq_true] at h
    obtain ⟨c, hc, -⟩ := h
    cases v <;> cases hc
    cases hv
  | reference k t =>
    rw [admits] at h
    split at h
    · rw [Option.any_eq_true] at h
      obtain ⟨s, hs, hname⟩ := h
      cases v <;> cases hs
      rw [truth_of_isNameLike hname] at hv
      cases hv
    · cases v <;> cases h
      cases hv
  | generic b us =>
    rw [canBeFalse]
    exact b.canBeFalse_of_admits h hv
  | list _ | map _ _ | classConstant _ _ | template _ => rfl

end Atom

end PhpFlow
