import PhpFlow.Proofs.TypeKeys

/-!
# When the order of alternatives does not matter

A union sorts its atoms by key and keeps one of those that count as the same. Which atoms it has does not
depend on the order in which they came. In which order it has them may, so the union is the same for every
order exactly if the keys tell its atoms apart.
-/
namespace PhpFlow

open List

open Atom (Ascending SameKey)

namespace Atom

variable {as bs : List Atom} {a b k : Atom}

/-- Those of the atoms that have the same key count as the same. -/
def Separated (as : List Atom) : Prop := ∀ a ∈ as, ∀ b ∈ as, a.compare b = .eq → a.SameKey b

instance (a b : Atom) : Decidable (a.SameKey b) := inferInstanceAs (Decidable (_ = _))

instance (as : List Atom) : Decidable (Separated as) :=
  inferInstanceAs (Decidable (∀ a ∈ as, ∀ b ∈ as, _ → _))

theorem Separated.subset (h : Separated as) (hsub : bs ⊆ as) : Separated bs :=
  fun a ha b hb => h a (hsub ha) b (hsub hb)

theorem Separated.of_sameKey (h : Separated as) (hsame : ∀ b ∈ bs, ∃ a ∈ as, b.SameKey a) : Separated bs := by
  intro b hb c hc hbc
  obtain ⟨b', hb', hbb'⟩ := hsame b hb
  obtain ⟨c', hc', hcc'⟩ := hsame c hc
  rw [Std.TransCmp.congr_left hbb'.compare_eq, Std.TransCmp.congr_right hcc'.compare_eq] at hbc
  exact hbb'.trans ((h b' hb' c' hc' hbc).trans hcc'.symm)

/-- Atoms of different kinds have different keys. -/
theorem separated_of_nodup_kind (h : (as.map kind).Nodup) : Separated as := by
  intro a ha b hb hab
  obtain ⟨r, hr⟩ := a.tokens_eq_cons false
  obtain ⟨s, hs⟩ := b.tokens_eq_cons false
  rw [compare_eq_iff, hr, hs] at hab
  rw [inj_on_of_nodup_map h ha hb (Int.ofNat.inj (KeyToken.num.inj (List.cons.inj hab).1))]
  rfl

/-- The keys in a list in order go up from the first. -/
theorem Ascending.isLE_of_mem (h : Ascending (a :: as)) (hb : b ∈ a :: as) : (a.compare b).isLE := by
  rcases mem_cons.mp hb with rfl | hb
  · have hself : b.compare b = .eq := Std.ReflCmp.compare_self
    rw [hself]
    rfl
  · exact ((pairwise_cons.mp h).1 b hb).1

/-- What the rest of a list in order has like an atom of another list, it has like one of the rest there:
the two firsts are like each other. -/
theorem Ascending.exists_mem_tail {c : Atom} (h : Ascending (a :: as)) (hab : a.SameKey b) (hc : c ∈ as)
    (hex : ∃ d ∈ b :: bs, c.SameKey d) : ∃ d ∈ bs, c.SameKey d := by
  obtain ⟨d, hd, hcd⟩ := hex
  rcases mem_cons.mp hd with rfl | hd
  · exact absurd (hab.trans hcd.symm) ((pairwise_cons.mp h).1 c hc).2
  · exact ⟨d, hd, hcd⟩

/-- Lists in order that hold the same atoms agree place by place, if keys tell the atoms apart. -/
theorem Ascending.forall₂_sameKey (has : Ascending as) (hbs : Ascending bs) (hsep : Separated as)
    (hab : ∀ a ∈ as, ∃ b ∈ bs, a.SameKey b) (hba : ∀ b ∈ bs, ∃ a ∈ as, b.SameKey a) :
    List.Forall₂ SameKey as bs := by
  induction as generalizing bs with
  | nil =>
    cases bs with
    | nil => exact .nil
    | cons b bs =>
      obtain ⟨a, ha, -⟩ := hba b mem_cons_self
      cases ha
  | cons a as ih =>
    cases bs with
    | nil =>
      obtain ⟨b, hb, -⟩ := hab a mem_cons_self
      cases hb
    | cons b bs =>
      -- Each first is like something in the other list, so neither key is below the other.
      obtain ⟨b', hb', hab'⟩ := hab a mem_cons_self
      obtain ⟨a', ha', hba'⟩ := hba b mem_cons_self
      have hle : (a.compare b).isLE := by
        rw [Std.TransCmp.congr_right hba'.compare_eq]
        exact has.isLE_of_mem ha'
      have hge : (b.compare a).isLE := by
        rw [Std.TransCmp.congr_right hab'.compare_eq]
        exact hbs.isLE_of_mem hb'
      have hkey : a.compare a' = .eq :=
        Std.TransCmp.eq_trans (Std.OrientedCmp.isLE_antisymm hle hge) hba'.compare_eq
      have hfirst : a.SameKey b := (hsep a mem_cons_self a' ha' hkey).trans hba'.symm
      refine .cons hfirst (ih (pairwise_cons.mp has).2 (pairwise_cons.mp hbs).2
        (hsep.subset (subset_cons_self a as)) ?_ ?_)
      · intro c hc
        exact has.exists_mem_tail hfirst hc (hab c (mem_cons_of_mem a hc))
      · intro c hc
        exact hbs.exists_mem_tail hfirst.symm hc (hba c (mem_cons_of_mem b hc))

theorem Ascending.nodup_tokens (h : Ascending as) : (as.map (Atom.tokens true)).Nodup :=
  pairwise_map.mpr (h.imp fun hab => hab.2)

def withKey (k : Atom) (as : List Atom) : List Atom := as.filter fun a => k.compare a = .eq

theorem withKey_cons_of_eq (h : k.compare a = .eq) (as : List Atom) : withKey k (a :: as) = a :: withKey k as :=
  filter_cons_of_pos (by simpa using h)

/-- In lists that agree place by place those with a key do too. -/
theorem withKey_congr (h : List.Forall₂ SameKey as bs) (k : Atom) :
    List.Forall₂ SameKey (withKey k as) (withKey k bs) := by
  refine List.rel_filter (fun {a b} hab => ?_) h
  simp only [Std.TransCmp.congr_right hab.compare_eq]

end Atom

/-- Sorting leaves atoms with the same key as the set lists them. -/
theorem SetOrder.withKey_ofList (σ : SetOrder) (k : Atom) (as : List Atom) :
    Atom.withKey k (σ.ofList as).atoms = Atom.withKey k (σ.list (Atom.distinct as)) := by
  rw [ofList, Atom.foldr_place]
  generalize σ.list (Atom.distinct as) = bs
  have htied : (Atom.withKey k bs).Pairwise Atom.Le := by
    refine pairwise_of_forall_mem_list fun a ha b hb => ?_
    simp only [Atom.withKey, mem_filter, decide_eq_true_iff] at ha hb
    rw [Atom.Le, Std.TransCmp.eq_trans (Std.OrientedCmp.eq_symm ha.2) hb.2]
    rfl
  have hsub : Atom.withKey k bs <+ Atom.withKey k (bs.insertionSort Atom.Le) := by
    simpa [Atom.withKey] using (sublist_insertionSort htied filter_sublist).filter fun a => k.compare a = .eq
  exact (hsub.eq_of_length ((perm_insertionSort Atom.Le bs).filter _).length_eq.symm).symm

namespace TypeUnion

theorem beq_iff_sameKey {u v : TypeUnion} : (u == v) = true ↔ u.SameKey v := decide_eq_true_iff

theorem beq_of_forall₂ {u v : TypeUnion} (h : List.Forall₂ Atom.SameKey u.atoms v.atoms) :
    (u == v) = true := by
  obtain ⟨as⟩ := u
  obtain ⟨bs⟩ := v
  rw [beq_iff_sameKey, TypeUnion.SameKey, TypeUnion.tokens, TypeUnion.tokens, atomTokens_congr h]

variable {as bs : List Atom}

/-- An atom of one list is like an atom of the union of another list with the same members. -/
theorem exists_sameKey_of_subset {σ τ : SetOrder} (h : as ⊆ bs) :
    ∀ a ∈ (σ.ofList as).atoms, ∃ b ∈ (τ.ofList bs).atoms, a.SameKey b :=
  fun _ ha => SetOrder.exists_mem_ofList (h (SetOrder.mem_ofList ha))

/-- If keys tell the atoms apart, neither their order nor that of the sets makes a difference. -/
theorem ofList_beq {σ τ : SetOrder} (h : ∀ a, a ∈ bs ↔ a ∈ as) (hsep : Atom.Separated as) :
    (σ.ofList bs == τ.ofList as) = true := by
  have hsub : as ⊆ bs := fun a ha => (h a).mpr ha
  have hsup : bs ⊆ as := fun a ha => (h a).mp ha
  exact beq_of_forall₂ ((σ.ascending_ofList bs).forall₂_sameKey (τ.ascending_ofList as)
    (hsep.subset fun a ha => hsup (SetOrder.mem_ofList ha)) (exists_sameKey_of_subset hsup)
    (exists_sameKey_of_subset hsub))

/-- The atom that came first of those with its key is the last of them. -/
theorem withKey_ofList_cons {k : Atom} {a : Atom} (h : k.compare a = .eq) (as : List Atom) :
    ∃ bs, (Atom.withKey k (ofList (a :: as)).atoms).reverse = a :: bs := by
  rw [ofList, SetOrder.withKey_ofList, SetOrder.latestFirst, Atom.withKey, filter_reverse, reverse_reverse,
    Atom.distinct]
  exact ⟨_, Atom.withKey_cons_of_eq h _⟩

/-- If the order does not matter, atoms with the same key count as the same: each of them can come
first. -/
theorem separated_of_order_irrelevant
    (h : ∀ bs : List Atom, (∀ a, a ∈ bs ↔ a ∈ as) → (ofList bs == ofList as) = true) :
    Atom.Separated as := by
  intro a ha b hb hab
  have hfront : ∀ c ∈ as, (ofList (c :: as)).SameKey (ofList as) := by
    intro c hc
    refine beq_iff_sameKey.mp (h (c :: as) fun d => ?_)
    simp only [mem_cons, or_iff_right_iff_imp]
    rintro rfl
    exact hc
  have hsame : (ofList (a :: as)).SameKey (ofList (b :: as)) := (hfront a ha).trans (hfront b hb).symm
  have hboth := forall₂_reverse_iff.mpr (Atom.withKey_congr hsame.atoms a)
  obtain ⟨cs, hcs⟩ := withKey_ofList_cons (Std.ReflCmp.compare_self : a.compare a = .eq) as
  obtain ⟨ds, hds⟩ := withKey_ofList_cons hab as
  rw [hcs, hds] at hboth
  exact (forall₂_cons.mp hboth).1

/-- The order and the number of times in which alternatives come never decide which of them a union has.
They make no difference to the union at all exactly if keys tell the alternatives apart. Then it does not
matter either how sets list them, or in which order unions are joined. -/
theorem order_irrelevant_iff_separated (as : List Atom) (us : List TypeUnion) :
    (∀ (σ : SetOrder) (bs : List Atom), (∀ a, a ∈ bs ↔ a ∈ as) →
      ((σ.ofList bs).atoms.map (Atom.tokens true)).Perm ((ofList as).atoms.map (Atom.tokens true))) ∧
    ((∀ bs : List Atom, (∀ a, a ∈ bs ↔ a ∈ as) → (ofList bs == ofList as) = true) ↔
      Atom.Separated as) ∧
    (Atom.Separated as →
      ∀ (σ : SetOrder) (bs : List Atom), (∀ a, a ∈ bs ↔ a ∈ as) → (σ.ofList bs == ofList as) = true) ∧
    (Atom.Separated (us.flatMap atoms) → ∀ (σ : SetOrder) (vs : List TypeUnion), (∀ u, u ∈ vs ↔ u ∈ us) →
      (σ.flatten vs == flatten us) = true) := by
  refine ⟨fun σ bs h => ?_, ⟨separated_of_order_irrelevant, fun hsep bs h => ofList_beq h hsep⟩,
    fun hsep σ bs h => ofList_beq h hsep, fun hsep σ vs h => ofList_beq (fun a => ?_) hsep⟩
  · refine (perm_ext_iff_of_nodup (σ.ascending_ofList bs).nodup_tokens
      (ascending_ofList as).nodup_tokens).mpr fun t => ?_
    simp only [mem_map]
    constructor
    · rintro ⟨b, hb, rfl⟩
      obtain ⟨a, ha, hba⟩ := exists_mem_ofList ((h b).mp (SetOrder.mem_ofList hb))
      exact ⟨a, ha, hba.symm⟩
    · rintro ⟨a, ha, rfl⟩
      obtain ⟨b, hb, hab⟩ := SetOrder.exists_mem_ofList ((h a).mpr (mem_ofList ha))
      exact ⟨b, hb, hab.symm⟩
  · simp only [mem_flatMap, h]

def mixedAlternatives : List Atom :=
  [.named ⟨["Foo"]⟩ "Foo", .classConstant ⟨["Foo"]⟩ "K", .list (.prim .int), .named ⟨["FOO"]⟩ "FOO",
    .reference .classString (some ⟨["Foo"]⟩)]

theorem mixedAlternatives_in_any_order :
    Atom.Separated mixedAlternatives ∧
      (ofList mixedAlternatives.reverse == ofList mixedAlternatives) = true ∧
      (flatten [.prim .null, ⟨mixedAlternatives⟩] == flatten [⟨mixedAlternatives⟩, .prim .null]) = true := by
  have hsep : Atom.Separated mixedAlternatives := by decide
  have hjoined : Atom.Separated ([⟨mixedAlternatives⟩, .prim .null].flatMap atoms) := by decide
  obtain ⟨-, hlist, -, hjoin⟩ := order_irrelevant_iff_separated mixedAlternatives [⟨mixedAlternatives⟩, .prim .null]
  exact ⟨hsep, hlist.mpr hsep _ fun _ => mem_reverse, hjoin hjoined _ _ fun _ => by simp [or_comm]⟩

/-- The constants `\Foo::K` and `\foo::K` have the same key and do not count as the same. -/
theorem classConstants_show_their_order :
    (ofList [.classConstant ⟨["Foo"]⟩ "K", .classConstant ⟨["foo"]⟩ "K"] ==
      ofList [.classConstant ⟨["foo"]⟩ "K", .classConstant ⟨["Foo"]⟩ "K"]) = false := by
  decide

end TypeUnion

end PhpFlow
