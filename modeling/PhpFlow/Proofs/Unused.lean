import PhpFlow.Proofs.Counting

/-!
# Unused variables

When the body of a function has been analysed, the counts of its variables are known exactly, and with them
which variables are unused: those that are written somewhere and read nowhere, parameters and variables
that exist everywhere aside.
-/
namespace PhpFlow

open List Option

variable {sc : Scope}

theorem withTemplates_apply {α : Type} (names : List String) (m : Step α) (s : State) :
    withTemplates names m s = ((m { s with templates := s.templates ++ names }).1,
      { (m { s with templates := s.templates ++ names }).2 with templates := s.templates }) := by
  simp [withTemplates, Bind.bind, Step.bind, Step.get, Step.modify, Step.ensuring]

namespace Function

variable (f : Function) (name : QualifiedName) (s : State)

def entered : State :=
  Step.enterFrame (some name)
    { s with templates := s.templates ++ (f.docComment?.map (·.templates)).getD [] }

def left (s t : State) : State := { Step.leaveFrame s.loopDepth t with templates := s.templates }

/-- A function is entered, its code is run, its unused variables are reported, and it is left. -/
theorem infer_apply (body : Step Bool) :
    f.infer name body s =
      (((f.run body >>= reportUnused) (f.entered name s)).1.map fun _ =>
          (((f.run body >>= reportUnused) (f.entered name s)).2.currentFrame.returnType.getD (.prim .void)),
        left s ((f.run body >>= reportUnused) (f.entered name s)).2) := by
  rw [infer_eq]
  change Step.bind _ _ s = _
  rw [Step.bind, withTemplates_apply, Step.inFrame_apply]
  unfold entered left
  cases ((f.run body >>= reportUnused) (Step.enterFrame (some name)
    { s with templates := s.templates ++ (f.docComment?.map (·.templates)).getD [] })).1 <;> rfl

variable {f name s} {body : Step Bool} {root : Handle} {t : State}

theorem infer_of_run {scope : Scope} (hrun : f.run body (f.entered name s) = (.ok root, t))
    (hscope : t.arena.scope? root = some scope) :
    ∃ type, f.infer name body s = (.ok type, left s ((t.unusedIssues scope).foldl Step.emit t)) := by
  have hbind : (f.run body >>= reportUnused) (f.entered name s) =
      (.ok (), (t.unusedIssues scope).foldl Step.emit t) :=
    (Step.bind_eq_of_ok hrun).trans (reportUnused_eq hscope)
  rw [infer_apply, hbind]
  exact ⟨_, rfl⟩

theorem infer_of_run_error {e : Fault} (hrun : f.run body (f.entered name s) = (.error e, t)) :
    f.infer name body s = (.error e, left s t) := by
  rw [infer_apply, Step.bind_eq_of_error hrun]
  rfl

end Function

def Scope.counts (sc : Scope) (x : String) : Int × Nat :=
  ((sc.var? x).map fun v => (v.reads, v.writes)).getD (0, 0)

theorem Scope.Orderly.counts_eq {n : Nat} (h : sc.Orderly n) (x : String) :
    sc.counts x = (sc.reads x, (sc.trail x).history.length) := by
  cases hv : sc.var? x with
  | none => simp [counts, reads, trail, hv, Trail.empty]
  | some v => simp [counts, reads, trail, hv, Variable.trail, h.counted x v hv]

namespace Local.Ran

variable {names : List String} {u : Usage} {l l' : Local} {h : Handle}

/-- What the scope of a function knows in the end, which was empty at first. -/
theorem counts (hran : l.Ran names u l') (hl : l.scope = .root h) :
    l'.scope.Orderly l'.next ∧
      (∀ x, l'.scope.counts x = (↑(u.reads.count x), u.writes.count x + names.count x)) ∧
      (∀ x, l'.scope.isArgument x = decide (x ∈ names)) ∧ l'.rest.config = l.rest.config := by
  obtain ⟨m, hdeclares, hadds⟩ := hran (hl ▸ Scope.orderly_root h l.next)
  have hreads : ∀ x, l.scope.reads x = 0 := fun x => by rw [hl]; rfl
  have hhistory : ∀ x, (l.scope.trail x).history = [] := fun x => by rw [hl]; rfl
  have hargument : ∀ x, l.scope.isArgument x = false := fun x => by rw [hl]; rfl
  refine ⟨hadds.orderly, fun x => ?_, fun x => ?_, hadds.config.trans hdeclares.config⟩
  · rw [hadds.orderly.counts_eq, hadds.gains.reads, hdeclares.reads, hreads, hadds.gains.writes,
      hdeclares.writes, hhistory, length_nil, Int.zero_add, Nat.zero_add, Nat.add_comm]
  · rw [hadds.gains.arguments, hdeclares.arguments, hargument, Bool.false_or]

end Local.Ran

theorem Scope.var?_of_mem (hnames : (sc.vars.map (·.name)).Nodup) {v : Variable} (hv : v ∈ sc.vars) :
    sc.var? v.name = some v := by
  have h : ∀ vs : List Variable, (vs.map (·.name)).Nodup → v ∈ vs →
      vs.find? (fun w => w.name = v.name) = some v := by
    intro vs
    induction vs with
    | nil => simp
    | cons w ws ih =>
      intro hnodup hmem
      rw [map_cons, nodup_cons] at hnodup
      rcases mem_cons.mp hmem with rfl | hmem
      · simp
      · have hne : w.name ≠ v.name := fun he => hnodup.1 (he ▸ mem_map_of_mem hmem)
        simp [hne, ih hnodup.2 hmem]
  exact h sc.vars hnames hv

/-- A variable of the scope is unused if it is written but not read, and no parameter. -/
theorem Scope.exists_isUnused_iff {names : List String} {u : Usage} (hnames : (sc.vars.map (·.name)).Nodup)
    (hcounts : ∀ x, sc.counts x = (↑(u.reads.count x), u.writes.count x + names.count x))
    (hargument : ∀ x, sc.isArgument x = decide (x ∈ names)) (x : String) :
    (∃ v ∈ sc.vars, v.isUnused = true ∧ v.name = x) ↔
      x ∉ names ∧ x ∉ superglobals ∧ x ∈ u.writes ∧ x ∉ u.reads := by
  have hunused : ∀ v, sc.var? x = some v →
      (v.isUnused = true ↔ x ∉ names ∧ x ∉ superglobals ∧ x ∈ u.writes ∧ x ∉ u.reads) := by
    intro v hv
    have hc := hcounts x
    have ha := hargument x
    simp only [counts, hv, map_some, getD_some, Prod.mk.injEq] at hc
    simp only [isArgument, hv, map_some, getD_some] at ha
    simp only [Variable.isUnused, Variable.isWritten, ha, hc.1, hc.2, name_of_var? hv, Bool.and_eq_true,
      Bool.not_eq_true', decide_eq_false_iff_not, beq_iff_eq, decide_eq_true_eq,
      Int.natCast_eq_zero, count_eq_zero, ← count_pos_iff (l := u.writes)]
    constructor
    · rintro ⟨⟨⟨hn, hr⟩, hw⟩, hg⟩
      rw [count_eq_zero.mpr hn] at hw
      exact ⟨hn, by simpa using hg, hw, hr⟩
    · rintro ⟨hn, hg, hw, hr⟩
      exact ⟨⟨⟨hn, hr⟩, by omega⟩, by simpa using hg⟩
  constructor
  · rintro ⟨v, hv, hu, rfl⟩
    exact (hunused v (var?_of_mem hnames hv)).mp hu
  · intro h
    cases hv : sc.var? x with
    | none =>
      -- A variable that is written somewhere is known.
      have hc := congrArg Prod.snd (hcounts x)
      have hpos := count_pos_iff.mpr h.2.2.1
      simp only [counts, hv, map_none, getD_none] at hc
      omega
    | some v => exact ⟨v, mem_of_var? hv, (hunused v hv).mpr h, name_of_var? hv⟩

def unusedMessage (x : String) : String := "Variable $" ++ x ++ " is assigned but never read"

theorem unusedMessage_injective {x y : String} (h : unusedMessage x = unusedMessage y) : x = y := by
  have hlist := congrArg String.toList h
  simp only [unusedMessage, String.toList_append] at hlist
  exact String.toList_inj.mp (append_cancel_left (append_cancel_right hlist))

theorem State.mem_unusedIssues {s : State} (hon : s.config.reportUnused = true) (sc : Scope) (x : String) :
    (∃ i ∈ s.unusedIssues sc, i.kind = .unusedVariable ∧ i.message = unusedMessage x) ↔
      ∃ v ∈ sc.vars, v.isUnused = true ∧ v.name = x := by
  rw [unusedIssues, if_pos hon]
  constructor
  · rintro ⟨i, hi, -, hmessage⟩
    obtain ⟨v, hv, rfl⟩ := mem_map.mp hi
    exact ⟨v, (mem_filter.mp hv).1, (mem_filter.mp hv).2, unusedMessage_injective hmessage⟩
  · rintro ⟨v, hv, hu, rfl⟩
    exact ⟨_, mem_map_of_mem (mem_filter.mpr ⟨hv, hu⟩), rfl, rfl⟩

/-- For every function whose body has no syntax error and declares no global variable: when its body has
been analysed, each variable has been read as often as the body has places that read it, and written as
often as it has places that write it and parameters of that name. What is reported then are exactly the
variables that are written but not read, parameters and superglobals aside. Only a number that cannot be
represented keeps the analysis from getting there. -/
theorem unused_variables_exact (f : Function) (name : QualifiedName) (where_ : NodeKind)
    (hbody : ∀ b ∈ f.body, b.outline.Plain) (s : State) (hs : s.arena.Placed)
    (hon : s.config.reportUnused = true) :
    (∃ (root : Handle) (t : State) (scope : Scope) (found : List Issue) (type : TypeUnion),
      f.run (f.analyzeBody where_) (f.entered name s) = (.ok root, t) ∧
      t.arena.scope? root = some scope ∧
      (∀ x, scope.counts x =
        (↑(f.usage.reads.count x), f.usage.writes.count x + (f.parameters.map (·.name)).count x)) ∧
      f.infer name (f.analyzeBody where_) s = (.ok type, Function.left s (found.foldl Step.emit t)) ∧
      ∀ x, (∃ i ∈ found, i.kind = .unusedVariable ∧
          i.message = "Variable $" ++ x ++ " is assigned but never read") ↔
        x ∉ f.parameters.map (·.name) ∧ x ∉ superglobals ∧ x ∈ f.usage.writes ∧ x ∉ f.usage.reads) ∨
    ∃ (e : Fault) (t : State), f.infer name (f.analyzeBody where_) s = (.error e, t) ∧ e.isNumeric := by
  have hcompletes := f.completes_body (fun b hb _ => hbody b hb) where_
  have hworking : (f.entered name s).Working _ _ := Step.working_enterFrame _ _ hs
  rcases (f.ends_counted hcompletes hworking).cases with
    ⟨root, t, hrun, rfl, -, scope, hscope, hran⟩ | ⟨e, t, hrun, he, -⟩
  · left
    obtain ⟨horderly, hcounts, hargument, hconfig⟩ := hran.counts rfl
    obtain ⟨type, hinfer⟩ := Function.infer_of_run hrun hscope
    have hreport : t.config.reportUnused = true := (congrArg Config.reportUnused hconfig).trans hon
    exact ⟨_, t, scope, t.unusedIssues scope, type, hrun, hscope, hcounts, hinfer, fun x =>
      (State.mem_unusedIssues hreport scope x).trans
        (Scope.exists_isUnused_iff horderly.names hcounts hargument x)⟩
  · exact .inr ⟨e, Function.left s t, Function.infer_of_run_error hrun, he⟩

/-- `function f($a) { $x = $a; while ($x) { if ($a) { $y = $x; } $x = $a; } return $x; }` -/
def writtenInLoop : Function :=
  let set x y := .expression default (.assign default (.var default x) (.var default y) false)
  ⟨default, "f", [⟨default, "a", none, none, false, false⟩],
    some (.block default
      [set "x" "a",
        .while_ default (.var default "x")
          (.block default [.ifElse default (.var default "a") (set "y" "x") [] none, set "x" "a"]),
        .return_ default (some (.var default "x"))]),
    none, none⟩

theorem written_in_loop_unused :
    (∀ b ∈ writtenInLoop.body, b.outline.Plain) ∧ (State.new {} {} none .discarding).arena.Placed ∧
      (State.new {} {} none .discarding).config.reportUnused = true ∧
      ∃ (root : Handle) (t : State) (scope : Scope) (found : List Issue) (type : TypeUnion),
        writtenInLoop.run (writtenInLoop.analyzeBody .function)
          (writtenInLoop.entered ⟨["f"]⟩ (.new {} {} none .discarding)) = (.ok root, t) ∧
        t.arena.scope? root = some scope ∧ scope.counts "a" = (3, 1) ∧ scope.counts "x" = (3, 2) ∧
        scope.counts "y" = (0, 1) ∧
        writtenInLoop.infer ⟨["f"]⟩ (writtenInLoop.analyzeBody .function) (.new {} {} none .discarding) =
          (.ok type, Function.left (.new {} {} none .discarding) (found.foldl Step.emit t)) ∧
        ∀ x, (∃ i ∈ found, i.kind = .unusedVariable ∧
          i.message = "Variable $" ++ x ++ " is assigned but never read") ↔ x = "y" := by
  have hbody : ∀ b ∈ writtenInLoop.body, b.outline.Plain := by decide
  have hplaced : (State.new {} {} none .discarding).arena.Placed :=
    (State.Working.root (s := .new {} {} none .discarding) rfl rfl).placed
  have husage : writtenInLoop.usage = ⟨["a", "x", "a", "x", "a", "x"], ["x", "y", "x"]⟩ := by decide
  have hnames : writtenInLoop.parameters.map (·.name) = ["a"] := rfl
  refine ⟨hbody, hplaced, rfl, ?_⟩
  rcases unused_variables_exact writtenInLoop ⟨["f"]⟩ .function hbody _ hplaced rfl with
    ⟨root, t, scope, found, type, hrun, hscope, hcounts, hinfer, hfound⟩ | ⟨e, t, hinfer, -⟩
  · rw [husage, hnames] at hcounts
    refine ⟨root, t, scope, found, type, hrun, hscope, hcounts "a", hcounts "x", hcounts "y", hinfer,
      fun x => ?_⟩
    rw [hfound, husage, hnames]
    constructor
    · simp only [mem_cons, not_mem_nil, or_false]
      rintro ⟨-, -, rfl | rfl | rfl, hx⟩ <;> simp at hx ⊢
    · rintro rfl
      decide
  · have hok : (writtenInLoop.infer ⟨["f"]⟩ (writtenInLoop.analyzeBody .function)
        (.new {} {} none .discarding)).1.toBool = true := by decide +kernel
    rw [hinfer] at hok
    cases hok

end PhpFlow
