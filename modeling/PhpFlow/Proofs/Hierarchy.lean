import Mathlib.Logic.Relation
import PhpFlow.Symbol

/-!
# The class hierarchy

Whether one class lies above another is decided by a search that takes each class once. The hierarchy may be
any graph: it may run in circles, and names in it may be unknown. The search answers yes just if the class is
found, no just if it is not found and nothing above is unknown, and leaves the question open otherwise.
-/
namespace PhpFlow

open List

namespace SymbolTable

def DerivesIn (cs : List ClassSymbol) (q p : QualifiedName) : Prop :=
  ∃ c, find? cs q.key = some c ∧ p ∈ c.bases

/-- The name is above the other, or it is the same: each class on the way is declared. -/
def Above (t : SymbolTable) (q p : QualifiedName) : Prop := Relation.ReflTransGen (DerivesIn t.classes) q p

section Search

variable {cs : List ClassSymbol} {q p r : QualifiedName} {c : ClassSymbol}

theorem find?_remove {key k : String} (h : k ≠ key) : find? (remove cs key) k = find? cs k := by
  rw [find?, remove, find?_filter, find?]
  congr 1
  funext d
  by_cases hd : d.name.key = k <;> simp [hd, h]

theorem find?_remove_self (key : String) : find? (remove cs key) key = none := by
  simp [find?, remove]

theorem DerivesIn.of_remove {key : String} (h : DerivesIn (remove cs key) q p) : DerivesIn cs q p := by
  obtain ⟨c, hc, hp⟩ := h
  have hne : q.key ≠ key := by
    rintro rfl
    rw [find?_remove_self] at hc
    cases hc
  exact ⟨c, (find?_remove hne).symm.trans hc, hp⟩

/-- A way up that passes a class can be entered at what the class derives from, and then need not pass the
class again. -/
theorem above_remove (hc : find? cs r.key = some c) (h : Relation.ReflTransGen (DerivesIn cs) q p) :
    Relation.ReflTransGen (DerivesIn (remove cs r.key)) q p ∨
      ∃ b ∈ c.bases, Relation.ReflTransGen (DerivesIn (remove cs r.key)) b p := by
  induction h with
  | refl => exact .inl .refl
  | @tail m p _ hstep ih =>
    obtain ⟨d, hd, hp⟩ := hstep
    by_cases hm : m.key = r.key
    · obtain rfl : c = d := Option.some.inj (hc.symm.trans (hm ▸ hd))
      exact .inr ⟨p, hp, .refl⟩
    · have hstep : DerivesIn (remove cs r.key) m p := ⟨d, (find?_remove hm).trans hd, hp⟩
      exact ih.imp (fun h => h.tail hstep) fun ⟨b, hb, h⟩ => ⟨b, hb, h.tail hstep⟩

/-- What lies above a class and some other names, apart from the class itself, lies above what the class
derives from or above the others, and is reached from there without the class. -/
theorem exists_above_cons (hc : find? cs q.key = some c) (pending : List QualifiedName)
    (P : QualifiedName → Prop) :
    (∃ r ∈ q :: pending, ∃ p, Relation.ReflTransGen (DerivesIn cs) r p ∧ P p) ↔
      P q ∨ ∃ r ∈ c.bases ++ pending, ∃ p,
        Relation.ReflTransGen (DerivesIn (remove cs q.key)) r p ∧ P p := by
  constructor
  · rintro ⟨r, hr, p, hrp, hp⟩
    rcases mem_cons.mp hr with rfl | hr
    · rcases Relation.ReflTransGen.cases_head hrp with rfl | ⟨m, ⟨d, hd, hm⟩, hmp⟩
      · exact .inl hp
      · obtain rfl : c = d := Option.some.inj (hc.symm.trans hd)
        rcases above_remove hc hmp with h | ⟨b, hb, h⟩
        · exact .inr ⟨m, mem_append_left _ hm, p, h, hp⟩
        · exact .inr ⟨b, mem_append_left _ hb, p, h, hp⟩
    · rcases above_remove hc hrp with h | ⟨b, hb, h⟩
      · exact .inr ⟨r, mem_append_right _ hr, p, h, hp⟩
      · exact .inr ⟨b, mem_append_left _ hb, p, h, hp⟩
  · rintro (hq | ⟨r, hr, p, hrp, hp⟩)
    · exact ⟨q, mem_cons_self, q, .refl, hq⟩
    · have hrp := Relation.ReflTransGen.mono (fun _ _ => DerivesIn.of_remove) _ _ hrp
      rcases mem_append.mp hr with hr | hr
      · exact ⟨q, mem_cons_self, p, .head ⟨c, hc, hr⟩ hrp, hp⟩
      · exact ⟨r, mem_cons_of_mem _ hr, p, hrp, hp⟩

/-- Nothing lies above a class that is not in the list. -/
theorem exists_above_cons_of_none (hq : find? cs q.key = none) (pending : List QualifiedName)
    (P : QualifiedName → Prop) :
    (∃ r ∈ q :: pending, ∃ p, Relation.ReflTransGen (DerivesIn cs) r p ∧ P p) ↔
      P q ∨ ∃ r ∈ pending, ∃ p, Relation.ReflTransGen (DerivesIn cs) r p ∧ P p := by
  have hself : (∃ p, Relation.ReflTransGen (DerivesIn cs) q p ∧ P p) ↔ P q := by
    constructor
    · rintro ⟨p, hqp, hp⟩
      rcases Relation.ReflTransGen.cases_head hqp with rfl | ⟨m, ⟨d, hd, -⟩, -⟩
      · exact hp
      · rw [hq] at hd
        cases hd
    · exact fun hp => ⟨q, .refl, hp⟩
  simp only [mem_cons, or_and_right, exists_or, exists_eq_left, hself]

variable (t : SymbolTable) (target : String)

/-- The search finds what lies above the pending names. -/
theorem searchUp_eq_true_iff (unseen : List ClassSymbol) (pending : List QualifiedName) (complete : Bool) :
    t.searchUp target unseen pending complete = some true ↔
      ∃ q ∈ pending, ∃ p, Relation.ReflTransGen (DerivesIn unseen) q p ∧ p.key = target := by
  fun_induction t.searchUp target unseen pending complete with
  | case1 => simp
  | case2 => simp
  | case3 unseen complete q pending hq =>
    simp only [true_iff]
    exact ⟨q, mem_cons_self, q, .refl, hq⟩
  | case4 unseen complete q pending hq c hc ih =>
    rw [ih, exists_above_cons hc, or_iff_right hq]
  | case5 unseen complete q pending hq hnone ih =>
    rw [ih, exists_above_cons_of_none hnone, or_iff_right hq]

/-- The search is left open if something above the pending names is not declared, unless it finds what it
looks for. -/
theorem searchUp_eq_none_iff {unseen : List ClassSymbol} (hunseen : unseen ⊆ t.classes)
    (pending : List QualifiedName) (complete : Bool) :
    t.searchUp target unseen pending complete = none ↔
      t.searchUp target unseen pending complete ≠ some true ∧ (complete = false ∨
        ∃ q ∈ pending, ∃ p, Relation.ReflTransGen (DerivesIn unseen) q p ∧ t.class? p = none) := by
  fun_induction t.searchUp target unseen pending complete with
  | case1 => simp
  | case2 => simp_all
  | case3 => simp
  | case4 unseen complete q pending hq c hc ih =>
    have hsub : remove unseen q.key ⊆ t.classes := fun d hd => hunseen (mem_filter.mp hd).1
    have hdeclared : t.class? q ≠ none := by
      have hmem := mem_of_find?_eq_some hc
      have hkey := find?_some hc
      intro hnone
      exact find?_eq_none.mp hnone c (hunseen hmem) hkey
    rw [ih hsub, exists_above_cons hc, or_iff_right hdeclared]
  | case5 unseen complete q pending hq hnone ih =>
    rw [ih hunseen, exists_above_cons_of_none hnone]
    cases hc : t.class? q <;> simp

end Search

/-- Whether a class derives from another is decided for every symbol table, also if the hierarchy runs in
circles or is not fully known: yes if the other lies above, else no if everything above is declared, and
else it stays open. -/
theorem hierarchy_search_is_exact (t : SymbolTable) (child ancestor : QualifiedName) :
    (t.derives? child ancestor = some true ↔ ∃ p, t.Above child p ∧ p.key = ancestor.key) ∧
    (t.derives? child ancestor = some false ↔
      (¬∃ p, t.Above child p ∧ p.key = ancestor.key) ∧ ∀ p, t.Above child p → (t.class? p).isSome) ∧
    (t.derives? child ancestor = none ↔
      (¬∃ p, t.Above child p ∧ p.key = ancestor.key) ∧ ∃ p, t.Above child p ∧ t.class? p = none) := by
  have htrue : t.derives? child ancestor = some true ↔ ∃ p, t.Above child p ∧ p.key = ancestor.key := by
    rw [derives?, searchUp_eq_true_iff]
    simp [Above]
  have hnone : t.derives? child ancestor = none ↔
      (¬∃ p, t.Above child p ∧ p.key = ancestor.key) ∧ ∃ p, t.Above child p ∧ t.class? p = none := by
    rw [← htrue, derives?, searchUp_eq_none_iff t ancestor.key (List.Subset.refl _)]
    simp [Above]
  refine ⟨htrue, ?_, hnone⟩
  have hdeclared : (∀ p, t.Above child p → (t.class? p).isSome) ↔
      ¬∃ p, t.Above child p ∧ t.class? p = none := by
    simp [Option.isSome_iff_ne_none]
  rw [hdeclared]
  -- What is left of the three answers.
  rcases hanswer : t.derives? child ancestor with _ | _ | _ <;> rw [hanswer] at htrue hnone <;> simp_all

end SymbolTable

end PhpFlow
