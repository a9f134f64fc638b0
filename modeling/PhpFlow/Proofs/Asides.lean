import PhpFlow.Proofs.Counting
import PhpFlow.Proofs.Lockstep
import PhpFlow.Proofs.Naming

/-!
# Functions as asides

The analysis of a function leaves no trace but the issues it finds: scopes are what they were, and if the
function says what it returns, names stand for what they did. What it finds does not depend on where the
function stands, but only on what names stand for there.
-/
namespace PhpFlow

open List

/-- Something has gone by that shows only in the issues found, in the numbers of writes and in new handles. -/
structure Aside (s s₁ : State) : Prop where
  stack : s₁.stack = s.stack
  scopes : ∀ k < (s.arena.scopes.size : Handle), s₁.arena.scope? k = s.arena.scope? k
  placed : s₁.arena.Placed
  outlook : s₁.outlook = s.outlook
  next : s.arena.nextWrite ≤ s₁.arena.nextWrite

section Symbols

variable {t : SymbolTable} {p q : QualifiedName} {u : TypeUnion}

theorem FunctionSymbol.returnType_of_promised {f : FunctionSymbol} (h : f.promised = some u) :
    f.returnType = some u := by
  obtain ⟨_, d, c, i, _⟩ := f
  cases d <;> cases c <;> simp_all [promised, returnType]

/-- What a function returns adds nothing to what it has promised. -/
theorem State.outlook_updateFunction {s : State} (h : s.outlook.promised q = some (some u)) (v : TypeUnion) :
    ({ s with symbols := s.symbols.updateFunction q fun g => { g with inferred := some v } } : State).outlook =
      s.outlook := by
  have hlookup (p : QualifiedName) := s.symbols.function?_updateFunction q p
    (f := fun g => { g with inferred := some v }) fun _ => rfl
  -- Only the symbol that is found under `q` changes, and that one has promised what it returns.
  have hpromised {p : QualifiedName} {g : FunctionSymbol} (hg : s.symbols.function? p = some g)
      (hkey : g.name.key = q.key) : g.promised = some u := by
    have hp : g.name.key = p.key := by simpa [SymbolTable.function?] using find?_some hg
    have hsame : s.symbols.function? q = s.symbols.function? p := by
      simp only [SymbolTable.function?, ← hkey, hp]
    simpa [State.outlook, hsame, hg] using h
  have hreturn (p : QualifiedName) : ((s.symbols.function? p).map fun g =>
      if g.name.key = q.key then { g with inferred := some v } else g).map (·.returnType) =
        (s.symbols.function? p).map (·.returnType) := by
    cases hg : s.symbols.function? p with
    | none => rfl
    | some g =>
      simp only [Option.map_some, Option.some.injEq]
      split
      · next hkey =>
        have hu := hpromised hg hkey
        rw [g.returnType_of_promised hu]
        exact FunctionSymbol.returnType_of_promised (f := { g with inferred := some v }) hu
      · rfl
  have hpromise (p : QualifiedName) : ((s.symbols.function? p).map fun g =>
      if g.name.key = q.key then { g with inferred := some v } else g).map (·.promised) =
        (s.symbols.function? p).map (·.promised) := by
    cases hg : s.symbols.function? p with
    | none => rfl
    | some g =>
      simp only [Option.map_some, Option.some.injEq]
      split <;> rfl
  simp only [State.outlook, State.bearings, hlookup, hreturn, hpromise]
  rfl

end Symbols

section Parameters

theorem parallel_readType (text : String) : (Step.get fun s => s.readType text).Parallel := by
  refine .get fun s t h => ?_
  have hclass := State.resolveClass_of_bearings (congrArg Outlook.bearings h)
  have htemplates : t.templates = s.templates := congrArg Outlook.templates h
  simp only [State.readType, State.nameContext, hclass, htemplates]

theorem parallel_readDocType (text : String) (range : Range) : (readDocType text range).Parallel := by
  refine .bind (parallel_readType text) fun r => ?_
  cases r with
  | ok u => exact .pure _
  | error e => exact .bind (.report _ _ _) fun _ => .pure none

theorem parallel_readParameterType (p : Parameter) : (readParameterType p).Parallel := by
  unfold readParameterType
  split
  · exact .pure none
  · exact .pure none
  · refine .bind (parallel_readType _) fun r => ?_
    cases r with
    | ok u => exact .pure _
    | error e => exact .bind (.report _ _ _) fun _ => .pure none

theorem parallel_readParameterDoc (doc : Option DocComment) (name : String) :
    (readParameterDoc doc name).Parallel := by
  unfold readParameterDoc
  split
  · exact .pure none
  · exact parallel_readDocType _ _

theorem parallel_bindParameter (doc : Option DocComment) (p : Parameter) :
    (bindParameter doc p).Parallel := by
  refine .bind (parallel_readParameterType p) fun written => .bind (parallel_readParameterDoc doc p.name)
    fun documented => ?_
  have hwrite (default : Option Value) (declared comment : Option TypeUnion) (type : TypeUnion) :
      (do
        Step.updateVar p.name fun v =>
          { v with isArgument := true, declaredType := declared, commentType := comment, default }
        Step.write p.name type none (some p.range) : Step Unit).Parallel :=
    .bind (.updateVar _ fun _ _ _ => rfl) fun _ => .write _ _ _ _
  split
  · exact .bind (.pure none) fun _ => hwrite _ _ _ _
  · exact .bind (Asked.value _).parallel fun _ => hwrite _ _ _ _

theorem parallel_bindParameters (doc : Option DocComment) (ps : List Parameter) :
    (bindParameters doc ps).Parallel := by
  induction ps with
  | nil => exact .pure ()
  | cons p ps ih => exact .bind (parallel_bindParameter doc p) fun _ => ih

end Parameters

section Running

open Step

variable {r s r₁ s₁ : State}
variable {body : Step Bool}

theorem Variable.isUnused_renumber (ρ : Nat → Nat) (v : Variable) : (v.renumber ρ).isUnused = v.isUnused := rfl

/-- Both analyses report the same variables as unused. -/
theorem Scope.Renumbered.unusedIssues {ρ : Nat → Nat} {sc sc' : Scope} (h : sc.Renumbered ρ sc')
    (houtlook : s.outlook = r.outlook) : s.unusedIssues sc' = r.unusedIssues sc := by
  have hconfig : s.config = r.config := congrArg Outlook.config houtlook
  have hposition : s.position = r.position := State.position_of_file (congrArg Outlook.file houtlook)
  have hvars : sc'.vars = sc.vars.map (Variable.renumber ρ) := h
  have hissue (v : Variable) : s.unusedIssue (v.renumber ρ) = r.unusedIssue v := by
    have hrange : (v.renumber ρ).history.head?.bind (·.range) = v.history.head?.bind (·.range) := by
      cases hv : v.history <;> simp [Variable.renumber, Write.renumber, hv]
    rw [State.unusedIssue, State.unusedIssue, hrange, hposition]
    rfl
  simp only [State.unusedIssues, hconfig, hvars, filter_map, map_map, Function.comp_def,
    Variable.isUnused_renumber, hissue]

theorem Function.parallel_run (f : Function) (hbody : body.Parallel) :
    (f.run body >>= reportUnused).Parallel := by
  intro φ o st held r s w
  obtain ⟨h, _, _, hh, hw, hw', -⟩ := w.working
  have hreport {r₁ s₁ : State} (w₁ : Mirrors φ o st held r₁ s₁) :
      Twin (reportUnused h) (reportUnused (φ.handle h)) r₁ s₁ (Moved φ o st held id fun _ => []) (φ.At st) := by
    obtain ⟨sc, sc', hsc, hsc', hvars, -⟩ := w₁.arenas.scopes h hh
    have hr := reportUnused_eq hsc
    have hs := reportUnused_eq hsc'
    rw [foldl_emit] at hr hs
    rw [hvars.unusedIssues (w₁.outlook.2.trans w₁.outlook.1.symm)] at hs
    exact .both hr hs ⟨rfl, w₁.note _⟩
  have hlast {r₁ s₁ : State} (w₁ : Mirrors φ o st held r₁ s₁) :
      Twin (do let _ ← body; return h : Step Handle) (do let _ ← body; return φ.handle h) r₁ s₁
        (fun k r₂ k' s₂ => Twin (reportUnused k) (reportUnused k') r₂ s₂ (Moved φ o st held id fun _ => []) (φ.At st))
        (φ.At st) := by
    refine Twin.chain (hbody w₁) ?_
    rintro _ r₂ _ s₂ ⟨-, w₂⟩
    exact .pure (hreport w₂)
  refine .bind (.bind (.getFault hw.handle hw'.handle (Twin.chain (parallel_bindParameters _ _ w) ?_)))
  rintro _ r₁ _ s₁ ⟨-, w₁⟩
  split
  · exact hlast w₁
  · refine Twin.chain (parallel_readDocType _ _ w₁) ?_
    rintro _ r₂ _ s₂ ⟨-, w₂⟩
    exact hlast w₂

theorem Step.Twin.inFrame {α β : Type} {m : Step α} {n : Step β} {name name' : Option QualifiedName}
    {R : α × Frame → State → β × Frame → State → Prop} {E : State → State → Prop}
    (h : Twin m n (enterFrame name r) (enterFrame name' s)
      (fun a r₁ b s₁ => R (a, r₁.currentFrame) (leaveFrame r.loopDepth r₁) (b, s₁.currentFrame)
        (leaveFrame s.loopDepth s₁))
      (fun r₁ s₁ => E (leaveFrame r.loopDepth r₁) (leaveFrame s.loopDepth s₁))) :
    Twin (Step.inFrame name m) (Step.inFrame name' n) r s R E := by
  cases h with
  | both hm hn h =>
    exact .both (by rw [inFrame_apply, hm]; rfl) (by rw [inFrame_apply, hn]; rfl) h
  | neither hm hn he he' h =>
    exact .neither (by rw [inFrame_apply, hm]; rfl) (by rw [inFrame_apply, hn]; rfl) he he' h

/-- Two analyses enter a function, the first of them before any write. -/
def Pairing.entering (r s : State) : Pairing where
  handle k := k - (r.arena.scopes.size : Nat) + (s.arena.scopes.size : Nat)
  number n := s.arena.nextWrite + n
  number_injective _ _ h := Nat.add_left_cancel h
  leftSink := r.sink
  rightSink := s.sink
  leftOuter := some r.stack
  rightOuter := some s.stack
  base := s.arena

/-- The second analysis may pass by what the first one, which is about to begin, works on. -/
structure Outset (r s : State) : Prop where
  placed : r.arena.Placed ∧ s.arena.Placed
  fresh : r.arena.nextWrite = 0
  outlook : s.outlook = r.outlook
  undocumented : r.outlook.pendingDoc = none

/-- A function is entered with empty scopes in both analyses. -/
theorem mirrors_enterFrame (name : Option QualifiedName) (h : Outset r s) :
    Mirrors (.entering r s) { r.outlook with loopDepth := 0 } [(r.arena.scopes.size : Nat)]
      [(r.arena.scopes.size : Nat)] (enterFrame name r) (enterFrame name s) := by
  have hroot : (Pairing.entering r s).handle (r.arena.scopes.size : Nat) = (s.arena.scopes.size : Nat) := by
    simp [Pairing.entering]
  have A : (Pairing.entering r s).Arenas [] r.arena s.arena := by
    refine ⟨.nil, by simp, h.placed, fun k => ?_, fun k => ?_, ⟨Nat.le_refl _, Nat.le_refl _⟩, by simp,
      fun _ _ => rfl⟩
    · change ((_ + k : Nat) : Int) - _ + _ = ((_ + k : Nat) : Int)
      omega
    · rw [h.fresh, Nat.zero_add]
      rfl
  have hentered (u : State) : (enterFrame name u).outlook = { u.outlook with loopDepth := 0 } := rfl
  refine ⟨A.add rfl (by simp) none none .neutral, ⟨rfl, ?_⟩, ⟨_, mem_singleton_self _, rfl⟩, ⟨rfl, ?_⟩, h.undocumented,
    [], rfl, rfl⟩
  · rw [map_singleton, hroot]
    rfl
  · rw [hentered, h.outlook]

theorem aside_leaveFrame (name : Option QualifiedName) {o : Outlook}
    (w : Mirrors (.entering r s) { o with loopDepth := 0 } [(r.arena.scopes.size : Nat)]
      [(r.arena.scopes.size : Nat)] r₁ s₁) (ho : s.outlook = o) : Aside s (leaveFrame s.loopDepth s₁) := by
  have hroot : (Pairing.entering r s).handle (r.arena.scopes.size : Nat) = (s.arena.scopes.size : Nat) := by
    simp [Pairing.entering]
  have hplace : s₁.stack = (enterFrame name s).stack := by
    rw [w.place.2, map_singleton, hroot]
    rfl
  obtain ⟨hstack, harena, hrest⟩ := leaveFrame_eq name s hplace s.loopDepth
  refine ⟨hstack, fun k hk => ?_, ?_, ?_, ?_⟩
  · rw [harena, Arena.scope?_discard, if_neg (Int.ne_of_lt hk)]
    exact w.arenas.foreign k hk
  · rw [harena]
    exact w.arenas.placed.2.discard _
  · have hleft : (leaveFrame s.loopDepth s₁).outlook = { s₁.outlook with loopDepth := s.loopDepth } := by
      change (leaveFrame s.loopDepth s₁).rest.outlook = _
      rw [hrest]
      rfl
    rw [hleft, w.outlook.2, ← ho]
    rfl
  · rw [harena, Arena.nextWrite_discard]
    exact w.arenas.grown.2

theorem sink_leaveFrame (depth : Nat) (s : State) : (leaveFrame depth s).sink = s.sink := by
  unfold leaveFrame
  split <;> rfl

/-- The second analysis passes by the function, and both find the same in it. -/
def PassedBy (r s r₁ s₁ : State) : Prop :=
  Aside s s₁ ∧ ∃ found : List Issue, r₁.sink = found.foldl Sink.emit r.sink ∧ s₁.sink = found.foldl Sink.emit s.sink

theorem Function.twin_inFrame (f : Function) (hbody : body.Parallel) (name : Option QualifiedName)
    (h : Outset r s) :
    Twin (Step.inFrame name (f.run body >>= reportUnused)) (Step.inFrame name (f.run body >>= reportUnused)) r s
      (fun _ r₁ _ s₁ => PassedBy r s r₁ s₁) (fun _ _ => True) := by
  have w := mirrors_enterFrame name h
  refine Twin.inFrame ((f.parallel_run hbody w).mono ?_ fun _ _ _ => trivial)
  rintro _ r₁ _ s₁ ⟨-, w₁⟩
  obtain ⟨found, hfr, hfs⟩ := w₁.sinks
  exact ⟨aside_leaveFrame name w₁ h.outlook, found, (sink_leaveFrame _ _).trans hfr, (sink_leaveFrame _ _).trans hfs⟩

/-- Template parameters are known during the function only. -/
theorem Function.twin_infer (f : Function) (hbody : body.Parallel) (name : QualifiedName) (h : Outset r s) :
    Twin (f.infer name body) (f.infer name body) r s (fun _ r₁ _ s₁ => PassedBy r s r₁ s₁) (fun _ _ => True) := by
  rw [f.infer_eq]
  generalize (f.docComment?.map (·.templates)).getD [] = names
  let extend (u : State) : State := { u with templates := u.templates ++ names }
  have hextended (u : State) :
      (extend u).outlook = { u.outlook with templates := u.outlook.templates ++ names } := rfl
  have hback {u u₁ : State} (a : Aside (extend u) u₁) : Aside u { u₁ with templates := u.templates } := by
    refine ⟨a.stack, a.scopes, a.placed, ?_, a.next⟩
    have hleft : ({ u₁ with templates := u.templates } : State).outlook =
        { u₁.outlook with templates := u.templates } := rfl
    rw [hleft, a.outlook]
    rfl
  have hextend : Outset (extend r) (extend s) :=
    ⟨h.placed, h.fresh, by rw [hextended, hextended, h.outlook], h.undocumented⟩
  have hinner := f.twin_inFrame hbody (some name) hextend
  apply Twin.bind
  refine .bind (.get (.bind (.modify (.ensuring (hinner.mono ?_ fun _ _ _ => .modify trivial)))))
  rintro x r₁ y s₁ ⟨ha, hfound⟩
  exact .modify (.pure ⟨hback ha, hfound⟩)

/-- A function that is known and says what it returns is passed by. -/
theorem Function.twin_define (f : Function) (hbody : body.Parallel) (h : Outset r s) {u : TypeUnion}
    (hpromised : r.outlook.promised (r.qualify f.name) = some (some u)) :
    Twin (f.define body) (f.define body) r s (fun _ r₁ _ s₁ => PassedBy r s r₁ s₁) (fun _ _ => True) := by
  have hname : s.qualify f.name = r.qualify f.name :=
    congrFun (State.qualify_of_bearings (congrArg Outlook.bearings h.outlook)) f.name
  have hpromised' : s.outlook.promised (r.qualify f.name) = some (some u) := by rw [h.outlook, hpromised]
  have hknown {v : State} (h : v.outlook.promised (r.qualify f.name) = some (some u)) :
      { v with symbols := v.symbols.addFunction (f.plainSymbol (r.qualify f.name)) } = v := by
    have hsome : (v.symbols.function? (r.qualify f.name)).isSome = true := by
      obtain ⟨g, hg, -⟩ := Option.map_eq_some_iff.mp h
      rw [hg, Option.isSome_some]
    have hsame : v.symbols.addFunction (f.plainSymbol (r.qualify f.name)) = v.symbols := if_pos hsome
    rw [hsame]
  refine .bind (.get (.bind (.modify ?_)))
  rw [hname, hknown hpromised, hknown hpromised']
  refine Twin.chain (f.twin_infer hbody _ h) ?_
  rintro x r₁ y s₁ ⟨ha, hfound⟩
  refine .modify ⟨⟨ha.stack, ha.scopes, ha.placed, ?_, ha.next⟩, hfound⟩
  rw [State.outlook_updateFunction (by rw [ha.outlook, hpromised']) y, ha.outlook]

end Running

end PhpFlow
