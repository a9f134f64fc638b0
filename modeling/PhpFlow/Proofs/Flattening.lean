import Mathlib.Data.List.Induction
import PhpFlow.Proofs.Membership
import PhpFlow.Proofs.UnionOrder

/-!
# Flattening unions

What a union has for an atom is what comes first in its list, so it makes no difference to the members whether
a list of atoms is put in order as a whole, in groups, or group by group. Where keys tell the atoms apart it
makes no difference to the union either.
-/
namespace PhpFlow

open List

open Atom (SameKey Separated)

namespace Atom

variable {a : Atom} {as bs : List Atom}

theorem Apart.find?_eq_some_iff (has : Apart as) {b : Atom} :
    as.find? (a == ·) = some b ↔ b ∈ as ∧ a.SameKey b := by
  constructor
  · exact fun h => ⟨mem_of_find?_eq_some h, beq_iff_sameKey.mp (find?_some h)⟩
  · rintro ⟨hb, hab⟩
    cases hfind : as.find? (a == ·) with
    | none => exact absurd (beq_iff_sameKey.mpr hab) (find?_eq_none.mp hfind b hb)
    | some c =>
      have hac : a.SameKey c := beq_iff_sameKey.mp (find?_some hfind)
      rw [has.eq (mem_of_find?_eq_some hfind) hb (hac.symm.trans hab)]

theorem Apart.distinct_eq (has : Apart as) : distinct as = as := by
  induction as with
  | nil => rfl
  | cons a as ih =>
    obtain ⟨ha, hrest⟩ := pairwise_cons.mp has
    rw [distinct, ih hrest, filter_eq_self.mpr fun b hb => ?_]
    simpa [← beq_iff_sameKey] using ha b hb

/-- Atoms that are the same from the end as from the front are not two. -/
theorem Apart.eq_of_reverse (has : Apart as) (h : List.Forall₂ SameKey as.reverse as) {b : Atom}
    (ha : a ∈ as) (hb : b ∈ as) : a = b := by
  cases as using List.bidirectionalRec with
  | nil => cases ha
  | singleton c => rw [mem_singleton.mp ha, mem_singleton.mp hb]
  | cons_append c as d =>
    rw [reverse_cons, reverse_append] at h
    have hdc : d.SameKey c := (forall₂_cons.mp h).1
    exact absurd hdc.symm ((pairwise_cons.mp has).1 d (mem_append_right as mem_cons_self))

theorem Ascending.apart (h : Ascending as) : Apart as := h.imp And.right

end Atom

namespace SetOrder

variable {σ τ : SetOrder} {as bs : List Atom}

/-- Nothing is found in a union that was not found first in its list. -/
theorem find?_ofList (σ : SetOrder) (a : Atom) (as : List Atom) :
    (σ.ofList as).atoms.find? (a == ·) = as.find? (a == ·) := by
  rw [← Atom.find?_distinct a as]
  refine Option.ext fun b => ?_
  rw [(σ.ascending_ofList as).apart.find?_eq_some_iff, (Atom.apart_distinct as).find?_eq_some_iff,
    (σ.atoms_perm as).mem_iff]

/-- Lists in which the same is found give unions with the same atoms. -/
theorem ofList_perm (h : ∀ a, as.find? (a == ·) = bs.find? (a == ·)) :
    (σ.ofList as).atoms.Perm (τ.ofList bs).atoms := by
  have hnodup (ρ : SetOrder) (cs : List Atom) : (ρ.ofList cs).atoms.Nodup :=
    (ρ.ascending_ofList cs).nodup_tokens.of_map _
  have hmem (ρ : SetOrder) (cs : List Atom) (a : Atom) :
      a ∈ (ρ.ofList cs).atoms ↔ cs.find? (a == ·) = some a := by
    rw [← ρ.find?_ofList, (ρ.ascending_ofList cs).apart.find?_eq_some_iff]
    exact (and_iff_left rfl).symm
  refine (perm_ext_iff_of_nodup (hnodup σ as) (hnodup τ bs)).mpr fun a => ?_
  rw [hmem, hmem, h]

/-- If keys tell the atoms apart, they can stand in one order only. -/
theorem ofList_eq (h : ∀ a, as.find? (a == ·) = bs.find? (a == ·)) (hsep : Separated as) :
    σ.ofList as = τ.ofList bs := by
  have hperm : (σ.ofList as).atoms.Perm (τ.ofList bs).atoms := ofList_perm h
  have hle (ρ : SetOrder) (cs : List Atom) : (ρ.ofList cs).atoms.Pairwise Atom.Le :=
    (ρ.ascending_ofList cs).imp And.left
  refine congrArg TypeUnion.mk (hperm.eq_of_pairwise (fun a b ha hb hab hba => ?_) (hle σ as) (hle τ bs))
  have hb' := hperm.mem_iff.mpr hb
  have hsame : a.SameKey b :=
    hsep a (mem_ofList ha) b (mem_ofList hb') (Std.OrientedCmp.isLE_antisymm hab hba)
  exact (σ.ascending_ofList as).apart.eq ha hb' hsame

/-- Parts of a list can be put in order before the whole is: the same is found. -/
theorem find?_append_ofList (σ : SetOrder) (a : Atom) (as bs : List Atom) :
    ((σ.ofList as).atoms ++ (σ.ofList bs).atoms).find? (a == ·) = (as ++ bs).find? (a == ·) := by
  rw [find?_append, find?_append, find?_ofList, find?_ofList]

theorem flatten_pair (σ : SetOrder) (u v : TypeUnion) : σ.flatten [u, v] = σ.union u v := by
  simp [flatten, union]

theorem union_flatten_perm (σ : SetOrder) (us vs : List TypeUnion) :
    (σ.union (σ.flatten us) (σ.flatten vs)).atoms.Perm (σ.flatten (us ++ vs)).atoms := by
  rw [flatten, flatten, flatten, flatMap_append, union]
  exact ofList_perm fun a => σ.find?_append_ofList a _ _

theorem flatten_append (us vs : List TypeUnion) (hsep : Separated ((us ++ vs).flatMap TypeUnion.atoms)) :
    σ.flatten (us ++ vs) = σ.union (σ.flatten us) (σ.flatten vs) := by
  rw [flatMap_append] at hsep
  rw [flatten, flatten, flatten, flatMap_append, union]
  exact ofList_eq (fun a => (σ.find?_append_ofList a _ _).symm) hsep

theorem foldl_union (us : List TypeUnion) (hsep : Separated (us.flatMap TypeUnion.atoms)) :
    us.foldl σ.union .empty = σ.flatten us := by
  induction us using List.reverseRecOn with
  | nil =>
    rw [foldl_nil, flatten, flatMap_nil]
    exact congrArg TypeUnion.mk (perm_nil.mp (σ.atoms_perm [])).symm
  | append_singleton us u ih =>
    rw [flatMap_append] at hsep
    rw [foldl_append, ih (hsep.subset (subset_append_left _ _)), foldl_cons, foldl_nil, union, flatten, flatten,
      flatMap_append]
    refine (ofList_eq (fun a => ?_) hsep).symm
    simp [find?_append, find?_ofList]

/-- The union of a list and of itself put in order are the same, if keys tell its atoms apart. -/
theorem flatten_ofList (as : List Atom) (hsep : Separated as) :
    σ.flatten [σ.ofList as] = σ.ofList as ∧ σ.flatten [σ.ofList as, σ.ofList as] = σ.ofList as := by
  constructor <;> refine (ofList_eq (fun a => ?_) hsep).symm <;> simp [find?_append, find?_ofList]

/-- A set that lists first what came last turns atoms with the same key round each time they are put into it,
so there are not two of them if that makes no difference. -/
theorem separated_of_flatten_ofList {as : List Atom}
    (h : (latestFirst.flatten [latestFirst.ofList as] == latestFirst.ofList as) = true) : Separated as := by
  intro a ha b hb hab
  have hapart := (latestFirst.ascending_ofList as).apart
  have hturned : Atom.withKey a (latestFirst.flatten [latestFirst.ofList as]).atoms =
      (Atom.withKey a (latestFirst.ofList as).atoms).reverse := by
    have hatoms : [latestFirst.ofList as].flatMap TypeUnion.atoms = (latestFirst.ofList as).atoms := by simp
    rw [flatten, hatoms, withKey_ofList, hapart.distinct_eq]
    exact filter_reverse
  have hsame : List.Forall₂ SameKey (Atom.withKey a (latestFirst.ofList as).atoms).reverse
      (Atom.withKey a (latestFirst.ofList as).atoms) := by
    rw [← hturned]
    exact Atom.withKey_congr (TypeUnion.beq_iff_sameKey.mp h).atoms a
  have hmem : ∀ {c}, c ∈ as → a.compare c = .eq →
      ∃ d ∈ Atom.withKey a (latestFirst.ofList as).atoms, c.SameKey d := by
    intro c hc hac
    obtain ⟨d, hd, hcd⟩ := TypeUnion.exists_mem_ofList hc
    refine ⟨d, mem_filter.mpr ⟨hd, ?_⟩, hcd⟩
    rw [decide_eq_true_iff, ← Std.TransCmp.congr_right hcd.compare_eq, hac]
  obtain ⟨c, hc, hac⟩ := hmem ha Std.ReflCmp.compare_self
  obtain ⟨d, hd, hbd⟩ := hmem hb hab
  have hcd : c = d := Atom.Apart.eq_of_reverse (hapart.sublist filter_sublist) hsame hc hd
  exact hac.trans (hcd ▸ hbd.symm)

end SetOrder

namespace TypeUnion

/-- A flattened list of unions has exactly their members, each once and with ascending keys, however sets list
them. Unions that are flattened in groups have the same members as all at once. If keys tell the members
apart it is the same union, and also the one that comes of joining them one after the other; then a union is
the same as itself flattened or joined with itself. This is so in every order exactly if keys tell its
members apart. -/
theorem flatten_is_union_in_any_grouping (σ : SetOrder) (us vs : List TypeUnion) (as : List Atom) :
    (∀ a, (σ.flatten us).contains a = true ↔ ∃ u ∈ us, u.contains a = true) ∧
    (σ.flatten us).atoms.Pairwise (fun a b => (a == b) = false ∧ (a.compare b).isLE) ∧
    (σ.flatten [σ.flatten us, σ.flatten vs]).atoms.Perm (σ.flatten (us ++ vs)).atoms ∧
    (Separated ((us ++ vs).flatMap atoms) → σ.flatten (us ++ vs) = σ.flatten [σ.flatten us, σ.flatten vs]) ∧
    (Separated (us.flatMap atoms) → us.foldl σ.union empty = σ.flatten us) ∧
    (Separated as → σ.flatten [σ.ofList as] = σ.ofList as ∧ σ.flatten [σ.ofList as, σ.ofList as] = σ.ofList as) ∧
    ((∀ τ : SetOrder, (τ.flatten [τ.ofList as] == τ.ofList as) = true) → Separated as) := by
  refine ⟨fun a => SetOrder.contains_flatten, ?_, ?_, fun hsep => ?_, SetOrder.foldl_union us,
    SetOrder.flatten_ofList as, fun h => SetOrder.separated_of_flatten_ofList (h _)⟩
  · refine (σ.ascending_ofList (us.flatMap atoms)).imp fun {a b} hab => ⟨?_, hab.1⟩
    exact Bool.eq_false_iff.mpr fun h => hab.2 (Atom.beq_iff_sameKey.mp h)
  · rw [SetOrder.flatten_pair]
    exact σ.union_flatten_perm us vs
  · rw [SetOrder.flatten_pair, SetOrder.flatten_append us vs hsep]

theorem mixedAlternatives_in_groups :
    flatten [⟨mixedAlternatives⟩, .prim .int, ⟨mixedAlternatives⟩] =
        flatten [flatten [⟨mixedAlternatives⟩, .prim .int], flatten [⟨mixedAlternatives⟩]] ∧
      [⟨mixedAlternatives⟩, .prim .int].foldl union empty = flatten [⟨mixedAlternatives⟩, .prim .int] ∧
      flatten [ofList mixedAlternatives] = ofList mixedAlternatives := by
  obtain ⟨-, -, -, hgroups, hfold, hself, -⟩ := flatten_is_union_in_any_grouping .latestFirst
    [⟨mixedAlternatives⟩, .prim .int] [⟨mixedAlternatives⟩] mixedAlternatives
  exact ⟨hgroups (by decide), hfold (by decide), (hself (by decide)).1⟩

/-- The constants `\Foo::K` and `\foo::K` change places when their union is flattened. -/
theorem classConstants_turn_when_flattened :
    (flatten [ofList [.classConstant ⟨["Foo"]⟩ "K", .classConstant ⟨["foo"]⟩ "K"]] ==
      ofList [.classConstant ⟨["Foo"]⟩ "K", .classConstant ⟨["foo"]⟩ "K"]) = false := by
  decide

end TypeUnion

end PhpFlow
