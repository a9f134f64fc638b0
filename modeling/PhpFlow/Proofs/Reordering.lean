import PhpFlow.Proofs.Asides
import PhpFlow.Proofs.Finishing

/-!
# The order of functions

The first round has entered all functions before any code is followed, and if each of them says what it
returns, the second round passes them by. So moving functions changes neither what is known about the
variables of the file nor which issues are found: both programs compare to the program without its functions.
-/
namespace PhpFlow

open List

def Stmt.function? : Stmt → Option Function
  | .function f => some f
  | _ => none

def topFunctions (ss : List Stmt) : List Function := ss.filterMap Stmt.function?

def otherStatements (ss : List Stmt) : List Stmt := ss.filter fun s => s.function?.isNone

theorem Stmt.eq_function {s : Stmt} {f : Function} (h : s.function? = some f) : s = .function f := by
  cases s <;> cases h
  rfl

theorem topFunctions_function (f : Function) (ss : List Stmt) :
    topFunctions (.function f :: ss) = f :: topFunctions ss := rfl

theorem topFunctions_other {x : Stmt} (hx : x.function? = none) (ss : List Stmt) :
    topFunctions (x :: ss) = topFunctions ss :=
  filterMap_cons_none hx

theorem otherStatements_other {x : Stmt} (hx : x.function? = none) (ss : List Stmt) :
    otherStatements (x :: ss) = x :: otherStatements ss :=
  filter_cons_of_pos (by simp [hx])

section FirstRound

/-- Nothing is declared by code that declares nothing. -/
theorem declareClosed_nothing : DeclareClosed plainCode fun m _ => ∀ σ, m σ = (.ok (), σ) where
  nothing _ := rfl
  sequence ha hb σ := by rw [Step.bind_eq_of_ok (ha σ), hb σ]
  unfollowed hm := hm
  definition r f as h σ := by
    have hnone : definition? f as = none := by simpa [plainCode] using h
    rw [declareDefinition, hnone]
    rfl
  function _ h := absurd h (by simp [plainCode])
  class_ _ _ _ _ _ _ h := absurd h (by simp [plainCode])
  namespace_ _ _ _ h := absurd h (by simp [plainCode])
  use _ _ h := absurd h (by simp [plainCode])
  const _ _ h := absurd h (by simp [plainCode])

def Function.symbolIn (f : Function) (σ : State) : FunctionSymbol := f.symbol (σ.qualify f.name) σ

/-- The first round enters the functions in order and nothing else. -/
theorem declareStatements_eq {ss : List Stmt}
    (hothers : ∀ x ∈ otherStatements ss, x.throughout plainCode = true)
    (hfunctions : ∀ f ∈ topFunctions ss, f.throughout plainCode = true) (σ : State) (symbols : SymbolTable) :
    declareStatements ss { σ with symbols } = (.ok (), { σ with
      symbols := ((topFunctions ss).map (·.symbolIn σ)).foldl SymbolTable.addFunction symbols }) := by
  induction ss generalizing symbols with
  | nil => rfl
  | cons x ss ih =>
    rw [declareStatements]
    cases hx : x.function? with
    | some f =>
      obtain rfl := Stmt.eq_function hx
      rw [topFunctions_function, forall_mem_cons] at hfunctions
      have hdeclare : (Stmt.function f).declare { σ with symbols } =
          (.ok (), { σ with symbols := symbols.addFunction (f.symbolIn σ) }) := by
        exact f.declareBody_induction declareClosed_nothing hfunctions.1 _
      rw [Step.bind_eq_of_ok hdeclare]
      exact ih hothers hfunctions.2 _
    | none =>
      rw [topFunctions_other hx] at hfunctions ⊢
      rw [otherStatements_other hx, forall_mem_cons] at hothers
      rw [Step.bind_eq_of_ok (x.declare_induction declareClosed_nothing hothers.1 _)]
      exact ih hothers.2 hfunctions _

end FirstRound

section Tables

variable {t u : SymbolTable} {gs gs' : List FunctionSymbol}

namespace SymbolTable

theorem function?_addFunction (t : SymbolTable) (g : FunctionSymbol) (q : QualifiedName) :
    (t.addFunction g).function? q = (t.function? q <|> if g.name.key = q.key then some g else none) := by
  unfold addFunction
  split
  · next hg =>
    -- A function that is there is found under the same key.
    split
    · next hkey =>
      have hsame : t.function? q = t.function? g.name := by simp only [function?, hkey]
      obtain ⟨g', hg'⟩ := Option.isSome_iff_exists.mp hg
      simp [hsame, hg']
    · simp
  · change (t.functions ++ [g]).find? _ = _
    rw [find?_append]
    by_cases hkey : g.name.key = q.key <;> simp [function?, hkey]

theorem function?_foldl_addFunction (gs : List FunctionSymbol) (t : SymbolTable) (q : QualifiedName) :
    (gs.foldl addFunction t).function? q = (t.function? q <|> gs.find? fun g => g.name.key = q.key) := by
  induction gs generalizing t with
  | nil => simp
  | cons g gs ih =>
    rw [foldl_cons, ih, function?_addFunction, find?_cons]
    cases t.function? q with
    | some g' => simp
    | none => by_cases hkey : g.name.key = q.key <;> simp [hkey]

theorem classes_foldl_addFunction (gs : List FunctionSymbol) (t : SymbolTable) :
    (gs.foldl addFunction t).classes = t.classes ∧ (gs.foldl addFunction t).constants = t.constants := by
  induction gs generalizing t with
  | nil => exact ⟨rfl, rfl⟩
  | cons g gs ih =>
    rw [foldl_cons, (ih _).1, (ih _).2]
    unfold addFunction
    split <;> exact ⟨rfl, rfl⟩

end SymbolTable

/-- Where no two have the same key it does not matter in which order functions are searched. -/
theorem find?_key_perm (hperm : gs'.Perm gs) (hkeys : (gs.map (·.name.key)).Nodup) (k : String) :
    gs'.find? (fun g => g.name.key = k) = gs.find? (fun g => g.name.key = k) := by
  induction hperm with
  | nil => rfl
  | cons g _ ih =>
    rw [map_cons, nodup_cons] at hkeys
    rw [find?_cons, find?_cons, ih hkeys.2]
  | swap g g' gs =>
    simp only [map_cons, nodup_cons, mem_cons, not_or] at hkeys
    simp only [find?_cons]
    by_cases hg : g.name.key = k
    · have hg' : g'.name.key ≠ k := fun he => hkeys.1.1 (hg.trans he.symm)
      simp [hg, hg']
    · simp [hg]
  | trans hperm hperm' ih ih' =>
    rw [ih ((hperm'.map _).nodup_iff.mpr hkeys), ih' hkeys]

/-- The outlook depends on what is found in the tables. -/
theorem State.outlook_of_lookup (σ : State) (hclasses : u.classes = t.classes)
    (hconstants : u.constants = t.constants) (hfunctions : ∀ q, u.function? q = t.function? q) :
    ({ σ with symbols := u } : State).outlook = ({ σ with symbols := t } : State).outlook := by
  simp only [State.outlook, State.bearings, hclasses, hconstants, hfunctions]

end Tables

section Functions

def Sink.blank : Sink := .collecting (.new .debug [])

def Function.visit (f : Function) : Step Unit := f.define (f.analyzeBody .function)

/-- The function is analysed without a fault where names stand for what they do in `r`. -/
def Function.RunsIn (f : Function) (r : State) : Prop := ∃ r₁, f.visit { r with sink := .blank } = (.ok (), r₁)

def Function.findings (f : Function) (r : State) : List Issue :=
  (f.visit { r with sink := .blank }).2.sink.emitted

def Function.Promised (f : Function) (r : State) : Prop :=
  ∃ u, r.outlook.promised (r.qualify f.name) = some (some u)

/-- Wherever the function stands, it is passed by with these findings, or it cannot be analysed at all. -/
theorem Function.visit_cases {f : Function} (hf : f.throughout plainCode = true) {r s : State}
    (hrs : Outset r s) (hpromised : f.Promised r) :
    (∃ (s₁ : State) (found : List Issue), f.visit s = (.ok (), s₁) ∧ f.RunsIn r ∧ Aside s s₁ ∧
      s₁.sink = found.foldl Sink.emit s.sink ∧ ∀ i, i ∈ found ↔ i ∈ f.findings r) ∨
    ∃ e s₁, f.visit s = (.error e, s₁) ∧ e.isNumeric ∧ ¬ f.RunsIn r := by
  obtain ⟨u, hu⟩ := hpromised
  have hblank : Outset { r with sink := .blank } s := ⟨hrs.placed, hrs.fresh, hrs.outlook, hrs.undocumented⟩
  have htwin := f.twin_define (f.parallel_analyzeBody hf .function) hblank hu
  cases htwin with
  | @both _ r₁ _ s₁ hm hn h =>
    obtain ⟨ha, found, hsink, hsink'⟩ := h
    refine .inl ⟨s₁, found, hn, ⟨r₁, hm⟩, ha, hsink', fun i => ?_⟩
    have hfindings : f.findings r = r₁.sink.emitted := congrArg (·.2.sink.emitted) hm
    rw [hfindings, hsink, Sink.mem_emitted_foldl_iff]
    simp [Sink.blank, Sink.emitted, Collector.new, Sink.collects]
  | @neither e e' r₁ s₁ hm hn _ he' _ =>
    refine .inr ⟨e', s₁, hn, he', ?_⟩
    rintro ⟨r₂, hr₂⟩
    have hboth : f.visit { r with sink := .blank } = (.error e, r₁) := hm
    rw [hr₂] at hboth
    cases hboth

end Functions

section Statements

open Step

/-- Where no doc comment waits, statements are just analysed one after the other. -/
theorem analyzeStatements_cons_apply (x : Stmt) (ss : List Stmt) (k : NodeKind) (hs : s.pendingDoc = none) :
    analyzeStatements (x :: ss) k s = Step.andThen (x.analyze k) (analyzeStatements ss k) s := by
  by_cases hcomment : ∃ r t, x = .comment r t
  · obtain ⟨r, t, rfl⟩ := hcomment
    rw [analyzeStatements, Stmt.analyze, Step.andThen, Step.thenContinue, Step.bind_assoc]
    rfl
  · rw [analyzeStatements]
    · have hdoc : applyDoc x.assigned? s = (.ok (), s) := by
        cases s
        subst hs
        rfl
      exact Step.bind_eq_of_ok hdoc
    · exact fun r t he => hcomment ⟨r, t, he⟩

theorem analyze_function_of_ok (h : f.visit s = (.ok (), s₁)) (k : NodeKind) :
    (Stmt.function f).analyze k s = (.ok true, s₁) := by
  have hvisit : Step.thenContinue f.visit s = (.ok true, s₁) := Step.bind_eq_of_ok h
  change Step.guarded f.range true (Step.thenContinue f.visit) s = _
  rw [Step.guarded, hvisit]

theorem analyze_function_of_error {e : Fault} (h : f.visit s = (.error e, s₁)) (he : e.isNumeric)
    (k : NodeKind) : (Stmt.function f).analyze k s = (.error e, s₁) := by
  have hvisit : Step.thenContinue f.visit s = (.error e, s₁) := Step.bind_eq_of_error h
  change Step.guarded f.range true (Step.thenContinue f.visit) s = _
  simp [Step.guarded, hvisit, Fault.isInternal_of_isNumeric he]

/-- Two analyses are in the scope of the file and know the same there, up to the numbers of writes. -/
structure Abreast (ρ : Nat → Nat) (o : Outlook) (t s : State) : Prop where
  injective : ρ.Injective
  place : t.stack = ([], [0]) ∧ s.stack = ([], [0])
  scopes : ∃ sc sc', t.arena.scope? 0 = some sc ∧ s.arena.scope? 0 = some sc' ∧ sc.Renumbered ρ sc' ∧
    sc.NumbersIn (· < t.arena.nextWrite)
  placed : t.arena.Placed ∧ s.arena.Placed
  nextWrite : ∀ k, ρ (t.arena.nextWrite + k) = s.arena.nextWrite + k
  outlook : t.outlook = o ∧ s.outlook = o
  undocumented : o.pendingDoc = none

variable {r s t s₁ t₁ : State} {fs : List Function} {a b : Except Fault Bool × State}
variable {f : Function} {ρ : Nat → Nat} {o : Outlook}

def Pairing.inFile (hρ : ρ.Injective) (t s : State) : Pairing where
  handle k := if k = 0 then 0 else k - (t.arena.scopes.size : Nat) + (s.arena.scopes.size : Nat)
  number := ρ
  number_injective := hρ
  leftSink := t.sink
  rightSink := s.sink
  leftOuter := none
  rightOuter := none
  base := ⟨#[], 0⟩

theorem Abreast.mirrors (w : Abreast ρ o t s) : Mirrors (.inFile w.injective t s) o [0] [0] t s := by
  obtain ⟨sc, sc', hsc, hsc', hvars⟩ := w.scopes
  refine ⟨⟨nodup_singleton _, ?_, w.placed, fun k => ?_, w.nextWrite, ⟨Nat.zero_le _, Nat.zero_le _⟩, ?_, ?_⟩,
    w.place, ⟨0, mem_singleton_self _, rfl⟩, w.outlook, w.undocumented, [], rfl, rfl⟩
  · exact forall_mem_singleton.mpr ⟨sc, sc', hsc, hsc', hvars⟩
  · have hpos : (0 : Int) < (t.arena.scopes.size : Nat) := Arena.lt_size_of_scope? hsc
    change (if ((_ + k : Nat) : Int) = 0 then (0 : Int) else _) = _
    rw [if_neg (by omega)]
    change ((_ + k : Nat) : Int) - _ + _ = ((_ + k : Nat) : Int)
    omega
  · exact forall_mem_singleton.mpr (Int.le_refl 0)
  · intro j hj
    have hneg : ¬ 0 ≤ j := Int.not_le.mpr hj
    rw [Arena.scope?, Arena.scope?, if_neg hneg, if_neg hneg]

theorem Abreast.moved (w : Abreast ρ o t s) (w₁ : Mirrors (.inFile w.injective t s) o [0] [0] t₁ s₁) :
    Abreast ρ o t₁ s₁ :=
  ⟨w.injective, w₁.place, w₁.arenas.scopes 0 (mem_singleton_self 0), w₁.arenas.placed, w₁.arenas.nextWrite,
    w₁.outlook, w₁.undocumented⟩

/-- The second analysis passes something by. -/
theorem Abreast.aside (w : Abreast ρ o t s) (a : Aside s s₁) : ∃ ρ₁, Abreast ρ₁ o t s₁ := by
  obtain ⟨sc, sc', hsc, hsc', hvars, hnum⟩ := w.scopes
  obtain ⟨ρ₁, hinj, hnext, hsame⟩ := exists_injective_from w.injective w.nextWrite a.next
  have hlive := Arena.lt_size_of_scope? hsc'
  exact ⟨ρ₁, hinj, ⟨w.place.1, a.stack.trans w.place.2⟩, ⟨sc, sc', hsc, (a.scopes 0 hlive).trans hsc',
    hvars.congr hsame hnum, hnum⟩, ⟨w.placed.1, a.placed⟩, hnext, ⟨w.outlook.1, a.outlook.trans w.outlook.2⟩,
    w.undocumented⟩

/-- How the analysis of statements, from `s`, compares to that of the same statements without the functions
`fs`, from `t`: both end with the same variables and the first finds more by what is in the functions, or the
first ends in a fault, because a function or the second does. -/
inductive Comparison (r : State) (fs : List Function) (s t : State) (a b : Except Fault Bool × State) : Prop
  | done (found found' : List Issue) {ρ : Nat → Nat} {s₁ t₁ : State}
      (ha : a = (.ok true, s₁)) (hb : b = (.ok true, t₁)) (hfs : ∀ f ∈ fs, f.RunsIn r)
      (w : Abreast ρ r.outlook t₁ s₁) (hsink : s₁.sink = found.foldl Sink.emit s.sink)
      (hsink' : t₁.sink = found'.foldl Sink.emit t.sink)
      (hfound : ∀ i, i ∈ found ↔ i ∈ found' ∨ ∃ f ∈ fs, i ∈ f.findings r) : Comparison r fs s t a b
  | failed {e : Fault} {s₁ : State} (ha : a = (.error e, s₁)) (he : e.isNumeric)
      (hwhy : (∃ f ∈ fs, ¬ f.RunsIn r) ∨ ∃ e' t₁, b = (.error e', t₁)) : Comparison r fs s t a b

/-- Before that the first analysis has passed by a function. -/
theorem Comparison.visited (c : Comparison r fs s₁ t a b) (hf : f.RunsIn r) {found : List Issue}
    (hsink : s₁.sink = found.foldl Sink.emit s.sink) (hfound : ∀ i, i ∈ found ↔ i ∈ f.findings r) :
    Comparison r (f :: fs) s t a b := by
  cases c with
  | done more more' ha hb hfs w hs ht hmore =>
    refine .done (found ++ more) more' ha hb (forall_mem_cons.mpr ⟨hf, hfs⟩) w ?_ ht fun i => ?_
    · rw [foldl_append, ← hsink, hs]
    · simp only [mem_append, hfound, hmore, exists_mem_cons_iff]
      exact or_left_comm
  | failed ha he hwhy =>
    refine .failed ha he (hwhy.imp_left ?_)
    rintro ⟨g, hg, hnot⟩
    exact ⟨g, mem_cons_of_mem _ hg, hnot⟩

/-- Before that both have found the same. -/
theorem Comparison.after (c : Comparison r fs s₁ t₁ a b) {found : List Issue}
    (hs : s₁.sink = found.foldl Sink.emit s.sink) (ht : t₁.sink = found.foldl Sink.emit t.sink) :
    Comparison r fs s t a b := by
  cases c with
  | done more more' ha hb hfs w hs' ht' hmore =>
    refine .done (found ++ more) (found ++ more') ha hb hfs w ?_ ?_ fun i => ?_
    · rw [foldl_append, ← hs, hs']
    · rw [foldl_append, ← ht, ht']
    · simp only [mem_append, hmore, or_assoc]
  | failed ha he hwhy => exact .failed ha he hwhy

/-- What the first analysis finds: what the second does and what is in the functions. -/
theorem mem_emitted_iff_of_found {k : Sink} {found found' : List Issue}
    (hs : s₁.sink = found.foldl Sink.emit k) (ht : t₁.sink = found'.foldl Sink.emit k)
    (hfound : ∀ i, i ∈ found ↔ i ∈ found' ∨ ∃ f ∈ fs, i ∈ f.findings r) (i : Issue) :
    i ∈ s₁.sink.emitted ↔ i ∈ t₁.sink.emitted ∨ k.collects ∧ ∃ f ∈ fs, i ∈ f.findings r := by
  rw [hs, ht, Sink.mem_emitted_foldl_iff, Sink.mem_emitted_foldl_iff, hfound, and_or_left, or_assoc]

/-- Functions and statements that can be analysed are no reason for a fault. -/
theorem not_failed {fs' : List Function} (hfs : ∀ f ∈ fs, f.RunsIn r) (hb : b = (.ok true, t₁))
    (hmem : ∀ f ∈ fs', f ∈ fs) : ¬ ((∃ f ∈ fs', ¬ f.RunsIn r) ∨ ∃ e' t₂, b = (.error e', t₂)) := by
  rintro (⟨f, hf, hnot⟩ | ⟨e', t₂, hb'⟩)
  · exact hnot (hfs f (hmem f hf))
  · rw [hb] at hb'
    cases hb'

/-- Statements with functions among them compare to the other statements. -/
theorem compare_statements {ss : List Stmt}
    (hothers : ∀ x ∈ otherStatements ss, x.throughout plainCode = true ∧ x.throughout errorFree = true)
    (hfunctions : ∀ f ∈ topFunctions ss, f.throughout plainCode = true ∧ f.Promised r) (hr : r.arena.Placed)
    (hnext : r.arena.nextWrite = 0) (k : NodeKind) (w : Abreast ρ r.outlook t s) :
    Comparison r (topFunctions ss) s t (analyzeStatements ss k s)
      (analyzeStatements (otherStatements ss) k t) := by
  induction ss generalizing ρ s t with
  | nil =>
    rw [otherStatements, filter_nil, analyzeStatements]
    exact .done [] [] rfl rfl (by simp [topFunctions]) w rfl rfl (by simp [topFunctions])
  | cons x ss ih =>
    have hdoc {u : State} (hu : u.outlook = r.outlook) : u.pendingDoc = none :=
      (congrArg Outlook.pendingDoc hu).trans w.undocumented
    rw [analyzeStatements_cons_apply x ss k (hdoc w.outlook.2)]
    cases hx : x.function? with
    | some f =>
      obtain rfl := Stmt.eq_function hx
      rw [topFunctions_function, forall_mem_cons] at hfunctions
      have hrs : Outset r s := ⟨⟨hr, w.placed.2⟩, hnext, w.outlook.2, w.undocumented⟩
      rcases Function.visit_cases hfunctions.1.1 hrs hfunctions.1.2 with
        ⟨s₁, found, hvisit, hruns, ha, hsink, hfound⟩ | ⟨e, s₁, hvisit, he, hnot⟩
      · obtain ⟨ρ₁, w₁⟩ := w.aside ha
        rw [Step.andThen, Step.bind_eq_of_ok (analyze_function_of_ok hvisit k), if_pos rfl]
        exact (ih hothers hfunctions.2 w₁).visited hruns hsink hfound
      · rw [Step.andThen, Step.bind_eq_of_error (analyze_function_of_error hvisit he k)]
        exact .failed rfl he (.inl ⟨f, mem_cons_self, hnot⟩)
    | none =>
      rw [topFunctions_other hx] at hfunctions
      rw [otherStatements_other hx, forall_mem_cons] at hothers
      rw [topFunctions_other hx, otherStatements_other hx, analyzeStatements_cons_apply x _ k (hdoc w.outlook.1)]
      cases x.parallel hothers.1.1 k w.mirrors with
      | @both _ t₁ ok s₁ hm hn h =>
        obtain ⟨rfl, w₁⟩ := h
        obtain ⟨found, ht, hs⟩ := w₁.sinks
        obtain rfl : ok = true := x.finishes hothers.1.2 k t ok t₁ hm
        rw [Step.andThen, Step.andThen, Step.bind_eq_of_ok hm, Step.bind_eq_of_ok hn, if_pos rfl, if_pos rfl]
        exact (ih hothers.2 hfunctions (w.moved w₁)).after hs ht
      | @neither e e' t₁ s₁ hm hn _ he' _ =>
        rw [Step.andThen, Step.andThen, Step.bind_eq_of_error hm, Step.bind_eq_of_error hn]
        exact .failed rfl he' (.inr ⟨e, t₁, rfl⟩)

end Statements

section Programs

def Function.key (f : Function) : String := (nameIn none f.name).key

def Function.declaredType? (f : Function) : Option TypeUnion :=
  (State.new {} {} none .discarding).readTypeText? f.returnType

/-- The functions of a program are its direct statements, no two of them have the same key, each says what it
returns, and nothing else is declared. -/
structure Movable (symbols : SymbolTable) (ss : List Stmt) : Prop where
  others : ∀ x ∈ otherStatements ss, x.throughout plainCode = true ∧ x.throughout errorFree = true
  bodies : ∀ f ∈ topFunctions ss, f.throughout plainCode = true
  keys : ((topFunctions ss).map Function.key).Nodup
  types : ∀ f ∈ topFunctions ss, f.declaredType?.isSome = true
  /-- So does a function that was there before, which counts in the place of that in the program. -/
  known : ∀ f ∈ topFunctions ss, ∀ g ∈ symbols.function? (nameIn none f.name), g.promised.isSome = true

/-- The functions stand at other places among the same statements. -/
structure Rearranged (ss ss' : List Stmt) : Prop where
  others : otherStatements ss' = otherStatements ss
  functions : (topFunctions ss').Perm (topFunctions ss)

/-- Nothing tells the analyses apart but the numbers of writes and the order of the issues found. -/
structure Analysis.Alike (a b : Analysis) : Prop where
  completed : b.completed = a.completed
  scopes : ∃ sc sc' : Scope, a.fileScope? = some sc ∧ b.fileScope? = some sc' ∧
    ∃ ρ : Equiv.Perm Nat, sc'.vars = sc.vars.map (Variable.renumber ρ)
  issues : ∀ i, i ∈ b.state.sink.emitted ↔ i ∈ a.state.sink.emitted

def State.collecting (σ : State) (ss : List Stmt) : State :=
  { σ with symbols := ((topFunctions ss).map (·.symbolIn σ)).foldl SymbolTable.addFunction σ.symbols }

variable {symbols : SymbolTable} {ss ss' : List Stmt}

section Rounds

variable (m : Movable symbols ss) {config : Config} {sink : Sink} {file : Option String} {σ : State}

include m

theorem Movable.rearranged (h : Rearranged ss ss') : Movable symbols ss' where
  others := by
    rw [h.others]
    exact m.others
  bodies f hf := m.bodies f (h.functions.mem_iff.mp hf)
  keys := (h.functions.map _).nodup_iff.mpr m.keys
  types f hf := m.types f (h.functions.mem_iff.mp hf)
  known f hf := m.known f (h.functions.mem_iff.mp hf)

variable (hσ : σ = .new symbols config file sink)

include hσ

/-- The file is analysed by following its statements with all functions entered. -/
theorem Movable.fileRounds_eq (r : Range) : fileRounds (.program r ss) true σ =
    Step.guarded r true (analyzeStatements ss .program) (σ.collecting ss) := by
  have hdeclare : declareStatements ss σ = (.ok (), σ.collecting ss) :=
    declareStatements_eq (fun x hx => (m.others x hx).1) m.bodies σ σ.symbols
  have hcollect : (Stmt.program r ss).collect σ = (.ok (), σ.collecting ss) := by
    rw [Stmt.collect, Stmt.declare, Step.bind_eq_of_ok hdeclare, hσ]
    rfl
  exact Step.bind_eq_of_ok (f := fun _ => (Stmt.program r ss).analyze .program) hcollect

theorem Movable.promised {f : Function} (hf : f ∈ topFunctions ss) : f.Promised (σ.collecting ss) := by
  subst hσ
  let σ := State.new symbols config file sink
  have hlookup : (σ.collecting ss).symbols.function? (nameIn none f.name) =
      (symbols.function? (nameIn none f.name) <|> ((topFunctions ss).map (·.symbolIn σ)).find? fun g =>
        g.name.key = (nameIn none f.name).key) :=
    SymbolTable.function?_foldl_addFunction _ _ _
  have hpromised (g : FunctionSymbol) (hg : (σ.collecting ss).symbols.function? (nameIn none f.name) = some g) :
      g.promised.isSome = true := by
    rw [hlookup] at hg
    cases hknown : symbols.function? (nameIn none f.name) with
    | some g' =>
      obtain rfl : g' = g := by simpa [hknown] using hg
      exact m.known f hf g' hknown
    | none =>
      rw [hknown] at hg
      obtain ⟨f', hf', rfl⟩ := mem_map.mp (mem_of_find?_eq_some hg)
      have hdeclared : (f'.symbolIn σ).declared.isSome = true := m.types f' hf'
      obtain ⟨u, hu⟩ := Option.isSome_iff_exists.mp hdeclared
      simp [FunctionSymbol.promised, hu]
  have hsome : ((σ.collecting ss).symbols.function? (nameIn none f.name)).isSome = true := by
    have hfound : (((topFunctions ss).map (·.symbolIn σ)).find? fun g =>
        g.name.key = (nameIn none f.name).key).isSome = true :=
      find?_isSome.mpr ⟨f.symbolIn σ, mem_map_of_mem hf, decide_eq_true rfl⟩
    rw [hlookup]
    cases symbols.function? (nameIn none f.name) with
    | some g => rfl
    | none => exact hfound
  obtain ⟨g, hg⟩ := Option.isSome_iff_exists.mp hsome
  obtain ⟨u, hu⟩ := Option.isSome_iff_exists.mp (hpromised g hg)
  refine ⟨u, ?_⟩
  change ((σ.collecting ss).symbols.function? (nameIn none f.name)).map (·.promised) = _
  rw [hg, Option.map_some, hu]

/-- Both programs have the same outlook after the first round. -/
theorem Movable.outlook_rearranged (h : Rearranged ss ss') :
    (σ.collecting ss').outlook = (σ.collecting ss).outlook := by
  subst hσ
  let σ := State.new symbols config file sink
  have hkeys : (((topFunctions ss).map (·.symbolIn σ)).map (·.name.key)).Nodup := by
    rw [map_map]
    exact m.keys
  refine State.outlook_of_lookup σ ?_ ?_ fun q => ?_
  · rw [(SymbolTable.classes_foldl_addFunction _ _).1, (SymbolTable.classes_foldl_addFunction _ _).1]
  · rw [(SymbolTable.classes_foldl_addFunction _ _).2, (SymbolTable.classes_foldl_addFunction _ _).2]
  · rw [SymbolTable.function?_foldl_addFunction, SymbolTable.function?_foldl_addFunction,
      find?_key_perm (h.functions.map _) hkeys]

/-- The program compares to its other statements, analysed from the state after the first round of `ss'`. -/
theorem Movable.compare (houtlook : (σ.collecting ss).outlook = (σ.collecting ss').outlook) :
    Comparison (σ.collecting ss') (topFunctions ss) (σ.collecting ss) (σ.collecting ss')
      (analyzeStatements ss .program (σ.collecting ss))
      (analyzeStatements (otherStatements ss) .program (σ.collecting ss')) := by
  subst hσ
  have hworking (ss : List Stmt) : ((State.new symbols config file sink).collecting ss).Working 0 (.root 0) :=
    .root rfl rfl
  have hs := hworking ss
  have hr := hworking ss'
  have hname := State.qualify_of_bearings (congrArg Outlook.bearings houtlook)
  have w : Abreast id _ (State.collecting _ ss') (State.collecting _ ss) :=
    ⟨Function.injective_id, ⟨rfl, rfl⟩, ⟨_, _, hr.scope, hs.scope, rfl, fun v hv => by cases hv⟩,
      ⟨hr.placed, hs.placed⟩, fun _ => rfl, ⟨rfl, houtlook⟩, rfl⟩
  refine compare_statements m.others (fun f hf => ⟨m.bodies f hf, ?_⟩) hr.placed rfl .program w
  obtain ⟨u, hu⟩ := m.promised rfl hf
  exact ⟨u, by rw [← houtlook, ← hname, hu]⟩

theorem Movable.analyzeFile_of_ok {s₁ : State}
    (h : analyzeStatements ss .program (σ.collecting ss) = (.ok true, s₁)) (r : Range) :
    analyzeFile (.program r ss) symbols config sink file true = .ok ⟨true, s₁⟩ := by
  rw [analyzeFile_eq, ← hσ, m.fileRounds_eq hσ, Step.guarded, h]

theorem Movable.analyzeFile_of_error {e : Fault} (he : e.isNumeric) {s₁ : State}
    (h : analyzeStatements ss .program (σ.collecting ss) = (.error e, s₁)) (r : Range) :
    analyzeFile (.program r ss) symbols config sink file true = .error e := by
  have hguarded : Step.guarded r true (analyzeStatements ss .program) (σ.collecting ss) = (.error e, s₁) := by
    simp [Step.guarded, h, Fault.isInternal_of_isNumeric he]
  rw [analyzeFile_eq, ← hσ, m.fileRounds_eq hσ, hguarded]

end Rounds

theorem Analysis.fileScope?_of_stack {ok : Bool} {s : State} {sc : Scope} (hstack : s.stack = ([], [0]))
    (hsc : s.arena.scope? 0 = some sc) : (Analysis.mk ok s).fileScope? = some sc := by
  have hscopes : s.fileFrame.scopes = [0] := congrArg Prod.snd hstack
  simp [Analysis.fileScope?, hscopes, hsc]

/-- It does not matter where the functions of a program stand if each says what it returns: both arrangements
are analysed, with the same variables and the same issues, or a number out of range stops both. -/
theorem function_order_is_irrelevant {symbols : SymbolTable} {ss ss' : List Stmt} (m : Movable symbols ss)
    (h : Rearranged ss ss') (config : Config) (sink : Sink) (file : Option String) (r r' : Range) :
    (∃ a b, analyzeFile (.program r ss) symbols config sink file true = .ok a ∧
      analyzeFile (.program r' ss') symbols config sink file true = .ok b ∧ a.Alike b) ∨
    ∃ e e', analyzeFile (.program r ss) symbols config sink file true = .error e ∧
      analyzeFile (.program r' ss') symbols config sink file true = .error e' ∧ e.isNumeric ∧ e'.isNumeric := by
  have m' := m.rearranged h
  -- Both are compared to one run, that of the statements which are the same in both.
  have hσ : State.new symbols config file sink = .new symbols config file sink := rfl
  have c := m.compare hσ rfl
  have c' := m'.compare hσ (m.outlook_rearranged hσ h)
  rw [h.others] at c'
  have hmem (f : Function) : f ∈ topFunctions ss' ↔ f ∈ topFunctions ss := h.functions.mem_iff
  cases c with
  | @done found others ρ s₁ t₁ ha hb hfs w hsink hothers hfound =>
    cases c' with
    | @done found' others' ρ' s₁' t₁' ha' hb' _ w' hsink' hothers' hfound' =>
      obtain rfl : t₁ = t₁' := (Prod.mk.inj (hb.symm.trans hb')).2
      obtain ⟨mid, sc, hmid, hsc, hvars, hnum⟩ := w.scopes
      obtain ⟨mid', sc', hmid', hsc', hvars', -⟩ := w'.scopes
      obtain rfl : mid = mid' := Option.some.inj (hmid.symm.trans hmid')
      refine .inl ⟨_, _, m.analyzeFile_of_ok hσ ha r, m'.analyzeFile_of_ok hσ ha' r', rfl, ⟨sc, sc',
        Analysis.fileScope?_of_stack w.place.2 hsc, Analysis.fileScope?_of_stack w'.place.2 hsc',
        hvars.meet hvars' w.injective w'.injective hnum⟩, fun i => ?_⟩
      rw [mem_emitted_iff_of_found hsink hothers hfound, mem_emitted_iff_of_found hsink' hothers' hfound']
      simp only [hmem]
      rfl
    | failed _ _ hwhy => exact absurd hwhy (not_failed hfs hb fun f => (hmem f).mp)
  | @failed e s₁ ha he hwhy =>
    cases c' with
    | done _ _ _ hb hfs => exact absurd hwhy (not_failed hfs hb fun f => (hmem f).mpr)
    | @failed e' s₁' ha' he' _ =>
      exact .inr ⟨e, e', m.analyzeFile_of_error hσ he ha r, m'.analyzeFile_of_error hσ he' ha' r', he, he'⟩

/-- `function name($a): type { return $a + $missing; }` -/
def sumFunction (name type missing : String) : Function :=
  ⟨.zero, name, [⟨.zero, "a", none, none, false, false⟩],
    some (.block .zero [.return_ .zero (some (.binary .zero (.var .zero "a") "+" (.var .zero missing)))]),
    some type, none⟩

/-- `$name = function(1);` -/
def callAssigned (name function : String) : Stmt :=
  .expression .zero (.assign .zero (.var .zero name)
    (.call .zero (.name .zero function) [.integer .zero 1]) false)

/-- `$x = f(1); function f($a): int { return $a + $b; } echo $d; $y = g(1);
function g($a): string { return $a + $c; }` -/
def calledBefore : List Stmt :=
  [callAssigned "x" "f", .function (sumFunction "f" "int" "b"), .echo .zero [.var .zero "d"],
   callAssigned "y" "g", .function (sumFunction "g" "string" "c")]

def calledAfter : List Stmt :=
  [.function (sumFunction "g" "string" "c"), .function (sumFunction "f" "int" "b"), callAssigned "x" "f",
   .echo .zero [.var .zero "d"], callAssigned "y" "g"]

def messagesOf (ss : List Stmt) : Except Fault (List String) :=
  (analyzeFile (.program .zero ss) {} {} .blank none true).map (·.state.sink.emitted.map Issue.message)

/-- The same is found in both, but not in the same order. -/
theorem calledBefore_alike_calledAfter :
    Movable {} calledBefore ∧ Rearranged calledBefore calledAfter ∧
    (∃ a b, analyzeFile (.program .zero calledBefore) {} {} .blank none true = .ok a ∧
      analyzeFile (.program .zero calledAfter) {} {} .blank none true = .ok b ∧ a.Alike b) ∧
    messagesOf calledBefore =
      .ok ["Variable $b is not defined", "Variable $d is not defined", "Variable $c is not defined"] ∧
    messagesOf calledAfter =
      .ok ["Variable $c is not defined", "Variable $b is not defined", "Variable $d is not defined"] := by
  have hmovable : Movable {} calledBefore :=
    ⟨by decide +kernel, by decide +kernel, by decide +kernel, by decide +kernel, fun f _ g hg => by cases hg⟩
  have hrearranged : Rearranged calledBefore calledAfter := ⟨rfl, .swap _ _ _⟩
  have hbefore : messagesOf calledBefore =
      .ok ["Variable $b is not defined", "Variable $d is not defined", "Variable $c is not defined"] := by
    decide +kernel
  have hafter : messagesOf calledAfter =
      .ok ["Variable $c is not defined", "Variable $b is not defined", "Variable $d is not defined"] := by
    decide +kernel
  refine ⟨hmovable, hrearranged, ?_, hbefore, hafter⟩
  rcases function_order_is_irrelevant hmovable hrearranged {} .blank none .zero .zero with
    halike | ⟨e, e', he, -⟩
  · exact halike
  · simp [messagesOf, he, Except.map] at hbefore

end Programs

end PhpFlow
