import PhpFlow.Proofs.TypeKeys

/-!
# Members of unions

A union has an atom as a member if one of its atoms counts as the same type. Building a union from a list
keeps the members of the list, and what is asked about an atom has one answer for all atoms that count as
the same.
-/
namespace PhpFlow

open List

namespace Atom

variable {a b : Atom}

theorem SameKey.isPrimitive (h : a.SameKey b) (p : Primitive) : a.isPrimitive p = b.isPrimitive p := by
  cases h.alike <;> rfl

theorem SameKey.isNull (h : a.SameKey b) : a.isNull = b.isNull := h.isPrimitive .null

theorem SameKey.isArrayLike (h : a.SameKey b) : a.isArrayLike = b.isArrayLike := by
  cases h.alike <;> rfl

theorem isPrimitive_iff {p : Primitive} : a.isPrimitive p = true ↔ a = .primitive p := by
  cases a with
  | primitive q => rw [Atom.isPrimitive, beq_iff_eq, Atom.primitive.injEq, eq_comm]
  | _ => simp [Atom.isPrimitive]

theorem sameKey_primitive {p : Primitive} : a.SameKey (.primitive p) ↔ a = .primitive p := by
  constructor
  · intro h
    cases h.alike
    rfl
  · rintro rfl
    rfl

end Atom

namespace TypeUnion

variable {u : TypeUnion} {a b : Atom}

theorem contains_iff : u.contains a = true ↔ ∃ b ∈ u.atoms, a.SameKey b := by
  simp only [contains, contains_iff_exists_mem_beq, Atom.beq_iff_sameKey]

theorem contains_of_mem (h : a ∈ u.atoms) : u.contains a = true := contains_iff.mpr ⟨a, h, rfl⟩

theorem contains_of_sameKey (h : a.SameKey b) (hb : u.contains b = true) : u.contains a = true := by
  obtain ⟨c, hc, hbc⟩ := contains_iff.mp hb
  exact contains_iff.mpr ⟨c, hc, h.trans hbc⟩

theorem contains_single : (single b).contains a = true ↔ a.SameKey b := by
  simp [contains_iff, single]

theorem contains_prim {p : Primitive} : (prim p).contains a = true ↔ a = .primitive p :=
  contains_single.trans Atom.sameKey_primitive

end TypeUnion

namespace SetOrder

variable {σ : SetOrder} {a : Atom} {as : List Atom}

/-- The union of a list has the members of the list. -/
theorem contains_ofList : (σ.ofList as).contains a = true ↔ ∃ b ∈ as, a.SameKey b := by
  rw [TypeUnion.contains_iff]
  constructor
  · rintro ⟨b, hb, h⟩
    exact ⟨b, mem_ofList hb, h⟩
  · rintro ⟨b, hb, h⟩
    obtain ⟨c, hc, hbc⟩ := exists_mem_ofList hb
    exact ⟨c, hc, h.trans hbc⟩

theorem contains_flatten {us : List TypeUnion} :
    (σ.flatten us).contains a = true ↔ ∃ u ∈ us, u.contains a = true := by
  rw [flatten, contains_ofList]
  constructor
  · rintro ⟨b, hb, h⟩
    obtain ⟨u, hu, hb⟩ := mem_flatMap.mp hb
    exact ⟨u, hu, TypeUnion.contains_iff.mpr ⟨b, hb, h⟩⟩
  · rintro ⟨u, hu, h⟩
    obtain ⟨b, hb, h⟩ := TypeUnion.contains_iff.mp h
    exact ⟨b, mem_flatMap.mpr ⟨u, hu, hb⟩, h⟩

end SetOrder

namespace TypeUnion

variable {u v : TypeUnion} {a : Atom} {as : List Atom}

theorem contains_ofList : (ofList as).contains a = true ↔ ∃ b ∈ as, a.SameKey b := SetOrder.contains_ofList

theorem contains_union : (u.union v).contains a = true ↔ u.contains a = true ∨ v.contains a = true := by
  rw [union, SetOrder.union, SetOrder.contains_ofList, contains_iff, contains_iff]
  simp only [mem_append, or_and_right, exists_or]

theorem contains_flatten {us : List TypeUnion} :
    (flatten us).contains a = true ↔ ∃ u ∈ us, u.contains a = true := SetOrder.contains_flatten

/-- A question that has one answer for all atoms of the same type picks members. -/
theorem contains_filter {p : Atom → Bool} (hp : ∀ a b, a.SameKey b → p a = p b) :
    (u.filter p).contains a = true ↔ u.contains a = true ∧ p a = true := by
  rw [filter, contains_ofList, contains_iff]
  constructor
  · rintro ⟨b, hb, h⟩
    obtain ⟨hb, hpb⟩ := List.mem_filter.mp hb
    exact ⟨⟨b, hb, h⟩, (hp a b h).trans hpb⟩
  · rintro ⟨⟨b, hb, h⟩, hpa⟩
    exact ⟨b, List.mem_filter.mpr ⟨hb, (hp a b h).symm.trans hpa⟩, h⟩

theorem contains_withoutNull : u.withoutNull.contains a = true ↔ u.contains a = true ∧ a.isNull = false := by
  rw [withoutNull, contains_filter fun a b h => by rw [h.isNull], Bool.not_eq_true']

theorem isEmpty_filter {p : Atom → Bool} : (u.filter p).isEmpty = true ↔ ∀ a ∈ u.atoms, p a = false := by
  rw [isEmpty, List.isEmpty_iff]
  constructor
  · intro h a ha
    by_contra hp
    obtain ⟨b, hb, -⟩ := exists_mem_ofList (List.mem_filter.mpr ⟨ha, eq_true_of_ne_false hp⟩)
    rw [show (ofList (u.atoms.filter p)).atoms = [] from h] at hb
    cases hb
  · intro h
    have hnone : u.atoms.filter p = [] := filter_eq_nil_iff.mpr fun a ha => by simp [h a ha]
    rw [filter, hnone]
    rfl

end TypeUnion

end PhpFlow
