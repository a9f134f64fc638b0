import PhpFlow.Proofs.Constructs
import PhpFlow.Proofs.Locality

/-!
# Definitions

Around scopes there is what names stand for: the namespace, its imports and the table of symbols. Functions,
methods, classes and namespaces change these and nothing else, so a property of steps that such changes have
passes from the bodies of definitions to the definitions, in both rounds.
-/
namespace PhpFlow

/-- A change of what names stand for. Which constants there are does not change. -/
inductive NameChange : (State → State) → Prop
  | namespace_ (ns : Option QualifiedName → Option QualifiedName)
      (us : List (String × QualifiedName) → List (String × QualifiedName)) :
      NameChange fun s => { s with namespaceName := ns s.namespaceName, uses := us s.uses }
  | addFunction (f : FunctionSymbol) : NameChange fun s => { s with symbols := s.symbols.addFunction f }
  | declareFunction (f : Function) (name : QualifiedName) :
      NameChange fun s => { s with symbols := s.symbols.addFunction (f.symbol name s) }
  | updateFunction (q : QualifiedName) (u : TypeUnion) : NameChange fun s =>
      { s with symbols := s.symbols.updateFunction q fun f => { f with inferred := some u } }
  | updateClass (q : QualifiedName) (f : ClassSymbol → ClassSymbol) :
      NameChange fun s => { s with symbols := s.symbols.updateClass q f }
  | addClass (c : ClassSymbol) : NameChange fun s => { s with symbols := s.symbols.addClass c }

namespace NameChange

variable {g : State → State} (hg : NameChange g)

include hg

theorem keeps {β : Type} {f : State → β}
    (hf : ∀ s ns us t, f { s with namespaceName := ns, uses := us, symbols := t } = f s) (s : State) :
    f (g s) = f s := by
  cases hg <;> exact hf s _ _ _

theorem constants (s : State) : (g s).symbols.constants = s.symbols.constants := by
  cases hg with
  | addFunction | declareFunction =>
    simp only [SymbolTable.addFunction]
    split <;> rfl
  | addClass =>
    simp only [SymbolTable.addClass]
    split <;> rfl
  | _ => rfl

theorem restOnly : Step.RestOnly g := by
  cases hg <;> exact {}

end NameChange

/-- A property that changes of what names stand for have, and that sequences of steps take over from their
parts. -/
structure DefinesClosed (Q : {α : Type} → Step α → Prop) : Prop where
  pure : ∀ {α : Type} (a : α), Q (pure a)
  bind : ∀ {α β : Type} {m : Step α} {f : α → Step β}, Q m → (∀ a, Q (f a)) → Q (m >>= f)
  get : ∀ {α : Type} {f : State → α}, State.Ambient f → Q (Step.get f)
  change : ∀ {g : State → State}, NameChange g → Q (Step.modify g)
  ensuring : ∀ {α : Type} {m : Step α} {g : State → State}, Q m → NameChange g →
    Q (Step.ensuring m (Step.modify g))
  inClass : ∀ {α : Type} (name : QualifiedName) {m : Step α}, Q m → Q (inClass name m)

namespace DefinesClosed

variable {Q : {α : Type} → Step α → Prop} {body : Step Bool} (h : DefinesClosed Q)

include h

theorem registerUses (cs : List UseClause) : Q (Step.modify (registerUses cs)) := by
  obtain ⟨g, hg⟩ := exists_registerUses_eq cs
  rw [funext hg]
  exact h.change (.namespace_ id g)

theorem define (f : Function) (hinfer : ∀ name, Q (f.infer name body)) : Q (f.define body) :=
  h.bind (h.get fun _ => rfl) fun name => h.bind (h.change (.addFunction (f.plainSymbol name))) fun _ =>
    h.bind (hinfer name) fun u => h.change (.updateFunction name u)

theorem defineMethod (m : Method) (hinfer : ∀ name, Q (m.function.infer name body)) : Q (m.define body) :=
  h.bind (h.get fun _ => rfl) fun _ => h.bind (h.change (.updateClass _ _)) fun _ =>
    h.bind (hinfer _) fun _ => h.change (.updateClass _ _)

theorem analyzeMethods (ms : List Method) (hms : ∀ m ∈ ms, Q m.analyze) : Q (analyzeMethods ms) := by
  induction ms with
  | nil =>
    rw [PhpFlow.analyzeMethods]
    exact h.pure ()
  | cons m ms ih =>
    obtain ⟨hm, hms⟩ := List.forall_mem_cons.mp hms
    exact h.bind hm fun _ => ih hms

section Rounds

variable {P : Step Bool → Prop}
  (hafter : ∀ {α : Type} {m : Step α} {f : α → Step Bool}, Q m → (∀ a, P (f a)) → P (m >>= f))

include hafter

theorem class_ (r : Range) (n : String) (p : Option String) (is : List String) (ms : List Method)
    (isInterface : Bool) (k : NodeKind) (hgoesOn : P (Pure.pure true)) {R : Step Unit → Prop}
    (hguarded : ∀ {m : Step Unit}, R m → ∀ r, Q (Step.guarded r true (Step.thenContinue m)))
    (hms : ∀ m ∈ ms, R (m.define (m.function.analyzeBody .method))) :
    P ((Stmt.class_ r n p is ms isInterface).analyze k) := by
  rw [Stmt.analyze]
  refine hafter (h.get fun _ => rfl) fun name =>
    hafter (h.inClass name (h.analyzeMethods ms fun m hm => ?_)) fun _ => hgoesOn
  obtain ⟨f, isStatic⟩ := m
  exact hguarded (hms _ hm) f.range

theorem inNamespace (hensuring : ∀ {m : Step Bool} {g : State → State}, P m → NameChange g →
      P (Step.ensuring m (Step.modify g)))
    (name : String) {body : Option (Step Bool)} (hnone : body = none → P (Pure.pure true))
    (hbody : ∀ m ∈ body, P m) : P (inNamespace name body) := by
  refine hafter (h.change (.namespace_ id fun _ => [])) fun _ =>
    hafter (h.get fun _ => rfl) fun saved =>
      hafter (h.change (.namespace_ (fun _ => namespaceOf name) id)) fun _ => ?_
  cases body with
  | none => exact hnone rfl
  | some m => exact hensuring (hbody m rfl) (.namespace_ (fun _ => saved) fun _ => [])

end Rounds

theorem methodSymbols (owner : QualifiedName) (ms : List Method)
    (hms : ∀ m ∈ ms, Q m.function.declareBody) : Q (methodSymbols owner ms) := by
  induction ms with
  | nil => exact h.pure []
  | cons m ms ih =>
    obtain ⟨f, _⟩ := m
    obtain ⟨hf, hms⟩ := List.forall_mem_cons.mp hms
    exact h.bind (h.get fun _ => rfl) fun _ => h.bind hf fun _ => h.bind (ih hms) fun _ => h.pure _

/-- Declarations have the property if the declaration of a constant has it. -/
theorem declares (hconstant : ∀ name e, Q (declareConstant name e)) :
    DeclareClosed anyCode fun m _ => Q m where
  nothing := h.pure ()
  sequence ha hb := h.bind ha fun _ => hb
  unfollowed hm := hm
  definition _ f as _ := by
    unfold declareDefinition
    split
    · exact hconstant _ _
    · exact h.pure ()
  function f _ hbody := h.bind (h.get fun _ => rfl) fun name =>
    h.bind (h.change (.declareFunction f name)) fun _ => hbody
  class_ _ _ _ _ ms _ _ hms := h.bind (h.get fun _ => rfl) fun name => h.bind (h.get fun _ => rfl) fun _ =>
    h.bind (h.inClass name (h.methodSymbols name ms hms)) fun _ => h.change (.addClass _)
  namespace_ _ n b _ hbody := by
    refine h.bind (h.get fun _ => rfl) fun saved =>
      h.bind (h.change (.namespace_ (fun _ => namespaceOf n) fun _ => [])) fun _ => ?_
    cases b with
    | none => exact h.pure ()
    | some b => exact h.ensuring (hbody _ rfl) (.namespace_ (fun _ => saved.1) fun _ => saved.2)
  use _ cs _ := h.registerUses cs
  const _ cs hn := by
    clear hn
    induction cs with
    | nil => exact h.pure ()
    | cons c cs ih =>
      obtain ⟨_, n, v⟩ := c
      exact h.bind (h.get fun _ => rfl) fun _ => h.bind (hconstant _ v) fun _ => ih

theorem collect (hconstant : ∀ name e, Q (declareConstant name e)) (program : Stmt) : Q program.collect :=
  h.bind (program.declare_induction (h.declares hconstant) program.throughout_anyCode) fun _ =>
    h.change (.namespace_ (fun _ => none) fun _ => [])

end DefinesClosed

end PhpFlow
