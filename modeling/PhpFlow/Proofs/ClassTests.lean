import PhpFlow.Proofs.Conditions
import PhpFlow.Proofs.Hierarchy
import PhpFlow.Proofs.Membership

/-!
# Tests for a class

A test for a class asks of each atom of a type whether its values are instances. Where the test fails exactly
the sure instances are gone. Where it succeeds the sure instances are left, or the class itself if there are
none. So an undecided atom beside a sure one is lost, unless the class itself is in the type.
-/
namespace PhpFlow

section Verdicts

theorem SymbolTable.derives_iff {t : SymbolTable} {q : QualifiedName} :
    t.derives q c = true ↔ ∃ p, t.Above q p ∧ p.key = c.key := by
  rw [derives, beq_iff_eq, derives?, searchUp_eq_true_iff]
  simp [Above]

/-- Only the key of a class counts in the hierarchy. -/
theorem SymbolTable.derives_of_key (t : SymbolTable) {p q : QualifiedName} (h : p.key = q.key)
    (c : QualifiedName) : t.derives p c = t.derives q c := by
  have hup : ∀ {p q : QualifiedName}, p.key = q.key → t.derives p c = true → t.derives q c = true := by
    intro p q h hp
    obtain ⟨top, habove, htop⟩ := derives_iff.mp hp
    rw [derives_iff]
    rcases Relation.ReflTransGen.cases_head habove with rfl | ⟨m, ⟨d, hd, hm⟩, hrest⟩
    · exact ⟨q, .refl, h.symm.trans htop⟩
    · rw [h] at hd
      exact ⟨top, .head ⟨d, hd, hm⟩ hrest, htop⟩
  exact Bool.eq_iff_iff.mpr ⟨hup h, hup h.symm⟩

variable {derives : QualifiedName → QualifiedName → Bool} {c : QualifiedName}

theorem Atom.SameKey.instanceVerdict (hd : ∀ p q, p.key = q.key → derives p c = derives q c) (a b : Atom)
    (h : a.SameKey b) : a.instanceVerdict derives c = b.instanceVerdict derives c := by
  cases a with
  | named p x =>
    cases h.alike with
    | @named _ q _ _ hkey => simp only [Atom.instanceVerdict, hkey, hd p q hkey]
  | generic base args =>
    cases h.alike with
    | @generic _ base' _ _ hbase hargs => exact SameKey.instanceVerdict hd base base' hbase
  | _ =>
    cases h.alike
    rfl
termination_by structural a

theorem Atom.instanceVerdict_target (derives : QualifiedName → QualifiedName → Bool) (c : QualifiedName)
    (x : String) : (Atom.named c x).instanceVerdict derives c = some true := by
  simp [Atom.instanceVerdict]

end Verdicts

section Refinement

variable {derives : QualifiedName → QualifiedName → Bool} {c : QualifiedName} {u v : TypeUnion} {a : Atom}

open TypeUnion

def TypeUnion.sureInstances (derives : QualifiedName → QualifiedName → Bool) (c : QualifiedName)
    (u : TypeUnion) : TypeUnion :=
  u.filter fun a => a.instanceVerdict derives c == some true

theorem refineInstance_of_unsure (hunsure : ∀ a ∈ u.atoms, a.instanceVerdict derives c ≠ some true) :
    refineInstance derives c .onTrue (some u) = some (.single (.named c c.baseName)) := by
  have hempty : (u.filter fun a => a.instanceVerdict derives c == some true).isEmpty = true :=
    isEmpty_filter.mpr fun a ha => beq_eq_false_iff_ne.mpr (hunsure a ha)
  simp only [refineInstance, hempty, if_true]

variable (hd : ∀ p q, p.key = q.key → derives p c = derives q c)

include hd

theorem contains_sureInstances :
    (u.sureInstances derives c).contains a = true ↔
      u.contains a = true ∧ a.instanceVerdict derives c = some true := by
  rw [sureInstances, contains_filter fun a b h => by rw [h.instanceVerdict hd a b], beq_iff_eq]

/-- Where the test succeeds the sure instances are left, if there are any. -/
theorem refineInstance_of_sure (ha : u.contains a = true) (hsure : a.instanceVerdict derives c = some true) :
    refineInstance derives c .onTrue (some u) = some (u.sureInstances derives c) := by
  have hempty : (u.sureInstances derives c).isEmpty = false := by
    rw [← Bool.not_eq_true, sureInstances, isEmpty_filter]
    intro hnone
    obtain ⟨b, hb, hab⟩ := contains_iff.mp ha
    rw [hab.instanceVerdict hd a b] at hsure
    exact beq_eq_false_iff_ne.mp (hnone b hb) hsure
  rw [sureInstances] at hempty
  simp only [refineInstance, hempty, Bool.false_eq_true, if_false, sureInstances]

/-- Where the test fails exactly the sure instances are gone. -/
theorem contains_refineInstance_onFalse (h : refineInstance derives c .onFalse (some u) = some v) (a : Atom) :
    v.contains a = true ↔ u.contains a = true ∧ a.instanceVerdict derives c ≠ some true := by
  have hv : v = u.filter fun a => !(a.instanceVerdict derives c == some true) := (Option.some.inj h).symm
  rw [hv, contains_filter fun a b h => by rw [h.instanceVerdict hd a b]]
  simp

/-- Where the test succeeds every possible instance is covered, exactly if none is undecided, or none is
sure, or the class itself is there. -/
theorem refineInstance_covers_iff (h : refineInstance derives c .onTrue (some u) = some v) :
    (∀ a ∈ u.atoms, a.instanceVerdict derives c ≠ some false →
      v.contains a = true ∨ v.contains (.named c c.baseName) = true) ↔
    (∀ a ∈ u.atoms, a.instanceVerdict derives c ≠ none) ∨
      (∀ a ∈ u.atoms, a.instanceVerdict derives c ≠ some true) ∨
      u.contains (.named c c.baseName) = true := by
  by_cases hunsure : ∀ a ∈ u.atoms, a.instanceVerdict derives c ≠ some true
  · obtain rfl := Option.some.inj ((refineInstance_of_unsure hunsure).symm.trans h)
    exact iff_of_true (fun _ _ _ => .inr (contains_single.mpr rfl)) (.inr (.inl hunsure))
  · obtain ⟨b, hb, hsure⟩ : ∃ b ∈ u.atoms, b.instanceVerdict derives c = some true := by
      simpa using hunsure
    obtain rfl := Option.some.inj ((refineInstance_of_sure hd (contains_of_mem hb) hsure).symm.trans h)
    simp only [contains_sureInstances hd, Atom.instanceVerdict_target, and_true, hunsure, false_or]
    constructor
    · intro hcovers
      by_cases htarget : u.contains (.named c c.baseName) = true
      · exact .inr htarget
      · left
        intro a ha hnone
        rcases hcovers a ha (by simp [hnone]) with ⟨-, hyes⟩ | hyes
        · rw [hnone] at hyes
          cases hyes
        · exact htarget hyes
    · rintro (hdecided | htarget) a ha hpossible
      · left
        rcases hverdict : a.instanceVerdict derives c with _ | _ | _
        · exact absurd hverdict (hdecided a ha)
        · exact absurd hverdict hpossible
        · exact ⟨contains_of_mem ha, rfl⟩
      · exact .inr htarget

end Refinement

/-- A condition with the operator narrows the type of the variable to `u` on this side: a branch is made, and
in it the variable has this type. -/
def Operator.NarrowsTo (op : Operator) (o : Operands) (scope : Handle) (side : BranchSide) (s : State)
    (name : String) (u : TypeUnion) : Prop :=
  ∃ k t arm v, op.narrow o scope side s = (.ok (some k), t) ∧ t.arena.scope? k = some arm ∧
    arm.var? name = some v ∧ v.flowType = some u

section Branches

variable {s : State} {scope : Handle} {sc : Scope} {o : Operands} {c : QualifiedName} {name : String}
  {v : Variable} {u : TypeUnion}

/-- A class test on a variable whose type can be refined narrows it to the refined type. -/
theorem narrowsTo_refineInstance (hscope : s.arena.scope? scope = some sc) (hplaced : s.arena.Placed)
    (hclass : (o.rightClass s).1 = .ok (some c)) (hname : o.leftVariable = some name)
    (hv : sc.var? name = some v) {side : BranchSide}
    (hu : refineInstance s.symbols.derives c side v.flowType = some u) :
    Operator.instanceOf.NarrowsTo o scope side s name u := by
  let k : Sink := (o.rightClass s).2.foldl Sink.emit s.sink
  have hquery : Step.query o.rightClass s = (.ok (some c), { s with sink := k }) := by
    rw [Step.query_eq, hclass]
  have hrun : Operator.instanceOf.narrow o scope side s =
      narrowVariable scope side name (refineInstance s.symbols.derives c side) { s with sink := k } := by
    change Operator.narrowInstance o scope side s = _
    simp only [Operator.narrowInstance, Bind.bind, Step.bind, hquery, hname]
    rfl
  rcases (Step.ends_narrowed (s := { s with sink := k }) (E := fun _ => False) hscope hplaced side hv hu).cases
    with ⟨_, t, ht, j, rfl, -, -, arm, harm, hvars⟩ | ⟨_, _, -, -, hfalse⟩
  · refine ⟨j, t, arm, { v with narrowed := some u }, hrun.trans ht, harm, ?_, rfl⟩
    have hvar := Scope.var?_updateVar sc (f := fun v => { v with narrowed := some u }) (fun _ => rfl) name name
    rw [if_pos rfl, hv] at hvar
    rw [Scope.var?, hvars]
    exact hvar
  · exact hfalse.elim

/-- A test whether a variable of a known type is an instance of a class makes a branch on each side. Where it
fails exactly the sure instances are gone from the type. Where it succeeds all that may be an instance is in
the type or covered by the class itself, if and only if no atom is undecided, none is sure, or the class
itself is among them. -/
theorem class_test_narrows_exactly (hscope : s.arena.scope? scope = some sc) (hplaced : s.arena.Placed)
    (hclass : (o.rightClass s).1 = .ok (some c)) (hname : o.leftVariable = some name)
    (hv : sc.var? name = some v) (hu : v.flowType = some u) :
    (∃ u', Operator.instanceOf.NarrowsTo o scope .onFalse s name u' ∧
      ∀ a, u'.contains a = true ↔
        u.contains a = true ∧ a.instanceVerdict s.symbols.derives c ≠ some true) ∧
    ∃ u', Operator.instanceOf.NarrowsTo o scope .onTrue s name u' ∧
      ((∀ a ∈ u.atoms, a.instanceVerdict s.symbols.derives c ≠ some false →
          u'.contains a = true ∨ u'.contains (.named c c.baseName) = true) ↔
        (∀ a ∈ u.atoms, a.instanceVerdict s.symbols.derives c ≠ none) ∨
        (∀ a ∈ u.atoms, a.instanceVerdict s.symbols.derives c ≠ some true) ∨
        u.contains (.named c c.baseName) = true) := by
  have hkey : ∀ p q : QualifiedName, p.key = q.key → s.symbols.derives p c = s.symbols.derives q c :=
    fun _ _ h => s.symbols.derives_of_key h c
  constructor
  · refine ⟨_, narrowsTo_refineInstance hscope hplaced hclass hname hv (by rw [hu]; rfl), ?_⟩
    exact contains_refineInstance_onFalse hkey rfl
  · refine ⟨_, narrowsTo_refineInstance hscope hplaced hclass hname hv (by rw [hu]; rfl), ?_⟩
    exact refineInstance_covers_iff hkey rfl

end Branches

section Example

def nameA : QualifiedName := ⟨["A"]⟩

def nameB : QualifiedName := ⟨["B"]⟩

def nameC : QualifiedName := ⟨["C"]⟩

theorem key_nameA : nameA.key = "\\a" := by decide

theorem key_nameB : nameB.key = "\\b" := by decide

theorem key_nameC : nameC.key = "\\c" := by decide

def threeClasses : SymbolTable :=
  { classes := [{ name := nameA }, { name := nameB, parent := some nameA }, { name := nameC }] }

theorem derives_nameB : threeClasses.derives nameB nameA = true := by
  have hB : SymbolTable.find? threeClasses.classes nameB.key = some { name := nameB, parent := some nameA } := by
    simp [SymbolTable.find?, threeClasses, key_nameA, key_nameB]
  exact SymbolTable.derives_iff.mpr ⟨nameA, .single ⟨_, hB, List.mem_cons_self⟩, rfl⟩

theorem derives_nameC : threeClasses.derives nameC nameA = false := by
  have hC : SymbolTable.find? threeClasses.classes nameC.key = some { name := nameC } := by
    simp [SymbolTable.find?, threeClasses, key_nameA, key_nameB, key_nameC]
  rw [← Bool.not_eq_true, SymbolTable.derives_iff]
  rintro ⟨p, habove, hp⟩
  rcases Relation.ReflTransGen.cases_head habove with rfl | ⟨m, ⟨d, hd, hm⟩, -⟩
  · simp [key_nameA, key_nameC] at hp
  · obtain rfl := Option.some.inj (hC.symm.trans hd)
    cases hm

def testedVariable (as : List Atom) : Variable := { name := "o", commentType := some (.ofList as) }

def classFile (as : List Atom) : State :=
  { State.new {} {} none .discarding with
    symbols := threeClasses
    arena := (Arena.empty.add none .neutral [testedVariable as]).2 }

def testForA : Operands := .constant none none none none none (some nameA) (some "o") none

theorem classFile_placed (as : List Atom) : (classFile as).arena.Placed :=
  (State.Working.root (s := classFile as) rfl rfl).placed

/-- Of a variable that is null or a `B` the `B` is left where the test succeeds, and null where it fails. -/
theorem maybeB_narrows_to_B :
    let file := classFile [.primitive .null, .named nameB "B"]
    (∃ u, Operator.instanceOf.NarrowsTo testForA 0 .onFalse file "o" u ∧
      u.contains (.primitive .null) = true ∧ u.contains (.named nameB "B") = false) ∧
    ∃ u, Operator.instanceOf.NarrowsTo testForA 0 .onTrue file "o" u ∧
      (u.contains (.named nameB "B") = true ∨ u.contains (.named nameA "A") = true) := by
  intro file
  have hB : (Atom.named nameB "B").instanceVerdict file.symbols.derives nameA = some true := by
    change (Atom.named nameB "B").instanceVerdict threeClasses.derives nameA = some true
    simp [Atom.instanceVerdict, derives_nameB]
  have hatoms : (TypeUnion.ofList [.primitive .null, .named nameB "B"]).atoms =
      [.primitive .null, .named nameB "B"] := rfl
  obtain ⟨⟨u, hu, hfalse⟩, u', hu', htrue⟩ := class_test_narrows_exactly (s := file) (o := testForA)
    (u := .ofList [.primitive .null, .named nameB "B"]) (show file.arena.scope? 0 = some _ from rfl)
    (classFile_placed _) rfl rfl rfl rfl
  refine ⟨⟨u, hu, ?_, ?_⟩, u', hu', ?_⟩
  · exact (hfalse _).mpr ⟨rfl, by simp [Atom.instanceVerdict]⟩
  · rw [← Bool.not_eq_true, hfalse]
    exact fun h => h.2 hB
  · have hdecided : ∀ a ∈ (TypeUnion.ofList [.primitive .null, .named nameB "B"]).atoms,
        a.instanceVerdict file.symbols.derives nameA ≠ none := by
      rw [hatoms, List.forall_mem_cons, List.forall_mem_singleton, hB]
      simp [Atom.instanceVerdict]
    exact htrue.mpr (.inl hdecided) (.named nameB "B") (by simp [hatoms]) (by simp [hB])

/-- Of a variable that is a `B` or a `C` only the `B` is left where the test succeeds, although an object of a
subclass of `C` may be an `A`. -/
theorem undecided_class_is_lost :
    ∃ u, Operator.instanceOf.NarrowsTo testForA 0 .onTrue (classFile [.named nameB "B", .named nameC "C"]) "o" u ∧
      (Atom.named nameC "C").instanceVerdict threeClasses.derives nameA = none ∧
      u.contains (.named nameC "C") = false ∧ u.contains (.named nameA "A") = false := by
  have hkey : ∀ p q : QualifiedName, p.key = q.key →
      threeClasses.derives p nameA = threeClasses.derives q nameA :=
    fun _ _ h => threeClasses.derives_of_key h nameA
  have hB : (Atom.named nameB "B").instanceVerdict threeClasses.derives nameA = some true := by
    simp [Atom.instanceVerdict, derives_nameB]
  have hC : (Atom.named nameC "C").instanceVerdict threeClasses.derives nameA = none := by
    simp [Atom.instanceVerdict, derives_nameC, key_nameA, key_nameC]
  have hmember : (TypeUnion.ofList [.named nameB "B", .named nameC "C"]).contains (.named nameB "B") = true :=
    TypeUnion.contains_ofList.mpr ⟨_, List.mem_cons_self, rfl⟩
  have hnarrows : Operator.instanceOf.NarrowsTo testForA 0 .onTrue
      (classFile [.named nameB "B", .named nameC "C"]) "o"
      ((TypeUnion.ofList [.named nameB "B", .named nameC "C"]).sureInstances threeClasses.derives nameA) :=
    narrowsTo_refineInstance (o := testForA) (v := testedVariable [.named nameB "B", .named nameC "C"]) rfl
      (classFile_placed _) rfl rfl rfl (refineInstance_of_sure hkey hmember hB)
  refine ⟨_, hnarrows, hC, ?_, ?_⟩
  · rw [← Bool.not_eq_true, contains_sureInstances hkey, hC]
    exact fun h => nomatch h.2
  · rw [← Bool.not_eq_true, contains_sureInstances hkey, TypeUnion.contains_ofList]
    rintro ⟨⟨b, hb, hsame⟩, -⟩
    have hkeys : nameA.key = nameB.key ∨ nameA.key = nameC.key := by
      rcases List.mem_cons.mp hb with rfl | hb
      · cases hsame.alike with
        | named h => exact .inl h
      · obtain rfl := List.mem_singleton.mp hb
        cases hsame.alike with
        | named h => exact .inr h
    simp [key_nameA, key_nameB, key_nameC] at hkeys

end Example

end PhpFlow
