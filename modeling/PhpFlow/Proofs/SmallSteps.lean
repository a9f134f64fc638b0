import PhpFlow.Declaration
import PhpFlow.Proofs.Locality
import PhpFlow.Proofs.Usage

/-!
# Small steps

Around the parts of a construct an analysis has small things to do: it marks variables as read, stores what
an expression gives, reads doc comments, binds parameters. A property of steps that the simplest steps have
and that passes on to sequences of steps is a property of all of these.
-/
namespace PhpFlow

/-- What an analysis asks for: something about the code, or that an issue is noted. Syntax errors are not
among these issues, nor are faults that were caught. -/
inductive Asked : {α : Type} → Query α → Prop
  | type (e : Expr) : Asked e.type
  | value (e : Expr) : Asked e.value
  | key (k : Option Expr) : Asked (Meaning.key (optionMeaning k))
  | updatedValue (op : String) (v : Option Value) : Asked (Query.ofExcept (updatedValue op v))
  | className (e : Expr) : Asked (Query.ask fun s => e.name?.map s.resolveClass)
  | report {kind : IssueKind} (h : kind ≠ .internalError ∧ kind ≠ .parseError) (message : String)
      (range : Option Range) : Asked (Query.report kind message range)

theorem numericOnly_updatedValue (op : String) (v : Option Value) : NumericOnly (updatedValue op v) := by
  unfold updatedValue
  split
  · exact (NumericOnly.ofNumber _).map _
  · exact .ok _
  · exact .ok _

theorem Asked.induction {P : {α : Type} → Query α → Prop} (h : QueryClosed (fun _ => True) P) {α : Type}
    {q : Query α} (hq : Asked q) : P q := by
  cases hq with
  | type e => exact (e.meaning_induction h fun _ _ => trivial).type
  | value e => exact (e.meaning_induction h fun _ _ => trivial).value
  | key k => exact h.key (optionMeaning_induction h k fun _ _ => trivial)
  | updatedValue op v => exact h.ofExcept (numericOnly_updatedValue op v)
  | className e => exact h.ask fun _ _ hst => by rw [State.resolveClass_of_bearings hst]
  | report hkind message range => exact h.report hkind message range

theorem Asked.orderly {α : Type} {q : Query α} (hq : Asked q) : q.Orderly := hq.induction queryClosed_orderly

/-- What is noted about a variable has nothing to do with its writes, its reads and its present type. -/
def Variable.Notes (f : Variable → Variable) : Prop :=
  ∀ v, ∃ comment declared default argument reported, f v =
    { v with
      commentType := comment
      declaredType := declared
      default := default
      isArgument := argument
      reportedUnknown := reported }

/-- Only the imports are changed, and what they become depends on nothing else. -/
theorem exists_registerUses_eq (cs : List UseClause) :
    ∃ g : List (String × QualifiedName) → List (String × QualifiedName),
      ∀ s, registerUses cs s = { s with uses := g s.uses } := by
  induction cs with
  | nil => exact ⟨id, fun _ => rfl⟩
  | cons c cs ih =>
    obtain ⟨g, hg⟩ := ih
    simp only [registerUses]
    split
    · exact ⟨g, hg⟩
    · exact ⟨g, hg⟩
    · exact ⟨fun us => g (State.setUse (Text.lower _) _ us), fun s => hg (s.addUse _ _)⟩

theorem registerUses_eq (cs : List UseClause) (s : State) : ∃ us, registerUses cs s = { s with uses := us } := by
  obtain ⟨g, hg⟩ := exists_registerUses_eq cs
  exact ⟨_, hg s⟩

section Reading

/-- A property of steps and the variables they read that single reads have, and with two steps also the one
after the other. -/
structure ReadClosed (P : List String → Step Unit → Prop) : Prop where
  nothing : P [] (pure ())
  sequence : ∀ {xs ys : List String} {a b : Step Unit}, P xs a → P ys b → P (xs ++ ys) (do a; b)
  single : ∀ r n, P (if n = "this" || superglobals.contains n then [] else [n]) (readVariable r n)

variable {P : List String → Step Unit → Prop}

mutual

/-- Reads are made of reads of single variables, one for every place where a value is used. -/
theorem Expr.read_induction (h : ReadClosed P) (e : Expr) (role : Role) :
    P (e.readings role) (e.read role) := by
  cases e with
  | var r n =>
    cases role with
    | value => exact h.single r n
    | target => exact h.nothing
  | paren _ a => exact a.read_induction h role
  | subscript _ b i => exact h.sequence (b.read_induction h role) (readOption_induction h i)
  | array _ es => exact readElements_induction h es role
  | assign _ a b byRef =>
    rw [Expr.read, Expr.readings]
    refine h.sequence (a.read_induction h .target) ?_
    split
    · exact h.nothing
    · exact b.read_induction h .value
  | augment _ a _ b | binary _ a _ b =>
    exact h.sequence (a.read_induction h .value) (b.read_induction h .value)
  | unary _ _ a | update _ _ a _ | cast _ _ a => exact a.read_induction h .value
  | ternary _ c b a =>
    exact h.sequence (c.read_induction h .value)
      (h.sequence (readOption_induction h b) (a.read_induction h .value))
  | call _ f as | create _ f as =>
    rw [Expr.read, Expr.readings]
    split
    · exact h.sequence (f.read_induction h .value) (readAll_induction h as)
    · exact readAll_induction h as
  | sequence _ es => exact readAll_induction h es
  | select _ e _ => exact e.read_induction h .value
  | _ => exact h.nothing

theorem readOption_induction (h : ReadClosed P) (e : Option Expr) : P (optionReadings e) (readOption e) := by
  cases e with
  | none => exact h.nothing
  | some e => exact e.read_induction h .value

theorem readAll_induction (h : ReadClosed P) (es : List Expr) : P (allReadings es) (readAll es) := by
  cases es with
  | nil => exact h.nothing
  | cons e es => exact h.sequence (e.read_induction h .value) (readAll_induction h es)

theorem readElements_induction (h : ReadClosed P) (es : List Element) (role : Role) :
    P (elementReadings es role) (readElements es role) := by
  cases es with
  | nil =>
    rw [readElements, elementReadings]
    exact h.nothing
  | cons e es =>
    obtain ⟨_, v, k, _, byRef⟩ := e
    cases role with
    | target =>
      exact h.sequence (readOption_induction h k)
        (h.sequence (v.read_induction h .target) (readElements_induction h es .target))
    | value =>
      rw [readElements, elementReadings]
      refine h.sequence (readOption_induction h k) ?_
      dsimp only
      split
      · exact readElements_induction h es .value
      · exact h.sequence (v.read_induction h .value) (readElements_induction h es .value)

end

end Reading

section Small

/-- What can be read off a state besides its scopes and the comment that is waiting. -/
def State.Ambient {α : Type} (f : State → α) : Prop := ∀ s, f { s.rest with pendingDoc := none } = f s

theorem State.Ambient.rest {α : Type} {f : State → α} (hf : Ambient f) (s : State) : f s.rest = f s := by
  have hframes : s.rest.rest = s.rest := by
    simp only [State.rest, List.map_map]
    rfl
  rw [← hf s, ← hf s.rest, hframes]

/-- The `@var` tags of the comment that is waiting. -/
def State.waiting (s : State) : List (String × Option String × Range) :=
  (s.pendingDoc.map fun doc => (DocComment.ofText doc.text doc.range).vars).getD []

theorem applyDoc_eq (assigned : Option String) : applyDoc assigned = (do
    let tags ← Step.get State.waiting
    Step.modify fun s => { s with pendingDoc := none }
    applyVars assigned tags) := by
  funext s
  obtain ⟨_, _, _, _, _, _, _, _, _, _, _, _ | doc, _⟩ := s <;> rfl

/-- A property that the simplest steps have and that sequences of steps take over from their parts. The steps
look at the state, and of variables they mark only that they were reported. The property may be weaker for
steps in a construct where faults are caught; the first argument says whether it is. -/
structure AskClosed (Q : Bool → {α : Type} → Step α → Prop) : Prop where
  pure : ∀ {b : Bool} {α : Type} (a : α), Q b (pure a)
  bind : ∀ {b : Bool} {α β : Type} {m : Step α} {f : α → Step β}, Q b m → (∀ a, Q b (f a)) →
    Q b (m >>= f)
  guarded : ∀ {b : Bool} {α : Type} {m : Step α} (r : Range) (fallback : α), Q true m →
    Q b (Step.guarded r fallback m)
  get : ∀ {b : Bool} {α : Type} {f : State → α}, State.Ambient f → Q b (Step.get f)
  currentScope : Q true (Step.getFault State.currentScope)
  query : ∀ {b : Bool} {α : Type} {q : Query α}, Asked q → Q b (Step.query q)
  mark : ∀ name, Q true (Step.updateVar name fun v => { v with reportedUnknown := true })

/-- The same for steps that also mark variables as read. -/
structure LookClosed (Q : Bool → {α : Type} → Step α → Prop) : Prop extends AskClosed Q where
  read : ∀ name r, Q true (Step.updateVar name fun v => v.read r)

/-- The same for steps that note what doc comments say. -/
structure NoteClosed (Q : Bool → {α : Type} → Step α → Prop) : Prop extends AskClosed Q where
  comment : ∀ name u, Q true (Step.updateVar name fun v => { v with commentType := some u })
  waiting : Q true (Step.get State.waiting)
  setDoc : ∀ {b : Bool} d, Q b (Step.modify fun s => { s with pendingDoc := d })

/-- The same for steps that also write. -/
structure StepClosed (Q : Bool → {α : Type} → Step α → Prop) : Prop extends LookClosed Q, NoteClosed Q where
  note : ∀ name {f : Variable → Variable}, Variable.Notes f → Q true (Step.updateVar name f)
  write : ∀ name u r, Q true (Step.write name u none r)
  mark := fun name => note name fun _ => ⟨_, _, _, _, _, rfl⟩
  comment := fun name _ => note name fun _ => ⟨_, _, _, _, _, rfl⟩

variable {Q : Bool → {α : Type} → Step α → Prop} {b : Bool}

namespace AskClosed

variable (h : AskClosed Q)

include h

theorem report {kind : IssueKind}
    (hkind : kind ≠ .internalError ∧ kind ≠ .parseError) (message : String) (range : Option Range) :
    Q b (Step.report kind message range) :=
  h.query (.report hkind message range)

theorem missing (message : String) (range : Option Range) : Q b (Step.reportMissing message range) :=
  h.report (by decide) message range

theorem type (e : Expr) : Q b (Step.query e.type) := h.query (.type e)

theorem value (e : Expr) : Q b (Step.query e.value) := h.query (.value e)

theorem reportUnknown (r : Range) (name : String) (reported : Bool) :
    Q true (reportUnknown r name reported) := by
  cases reported with
  | true => exact h.mark name
  | false => exact h.bind (h.report (by decide) _ _) fun _ => h.mark name

theorem check (e : Expr) : Q b e.check :=
  h.bind (h.type e) fun _ => h.bind (h.value e) fun _ => h.pure ()

theorem readDocType (text : String) (range : Range) : Q b (readDocType text range) := by
  refine h.bind (h.get fun _ => rfl) fun r => ?_
  cases r with
  | ok u => exact h.pure _
  | error e => exact h.bind (h.report (by decide) _ _) fun _ => h.pure none

theorem readParameterType (p : Parameter) : Q b (readParameterType p) := by
  unfold PhpFlow.readParameterType
  split
  · exact h.pure none
  · exact h.pure none
  · refine h.bind (h.get fun _ => rfl) fun r => ?_
    cases r with
    | ok u => exact h.pure _
    | error e => exact h.bind (h.missing _ _) fun _ => h.pure none

theorem readParameterDoc (doc : Option DocComment) (name : String) : Q b (readParameterDoc doc name) := by
  unfold PhpFlow.readParameterDoc
  split
  · exact h.pure none
  · exact h.readDocType _ _

theorem reportUnusedAll (vs : List Variable) : Q b (reportUnusedAll vs) := by
  induction vs with
  | nil => exact h.pure ()
  | cons v vs ih =>
    rw [PhpFlow.reportUnusedAll]
    split
    · exact h.bind (h.report (by decide) _ _) fun _ => ih
    · exact ih

end AskClosed

namespace LookClosed

theorem readVariable (h : LookClosed Q) (r : Range) (name : String) : Q b (readVariable r name) := by
  unfold PhpFlow.readVariable
  split
  · exact h.pure ()
  · refine h.guarded r () (h.bind h.currentScope fun scope => ?_)
    split
    · exact h.bind (h.reportUnknown r name false) fun _ => h.read name _
    · split
      · exact h.bind (h.reportUnknown r name _) fun _ => h.read name _
      · split
        · exact h.bind (h.report (by decide) _ _) fun _ => h.read name _
        · exact h.read name _

theorem reads (h : LookClosed Q) (e : Expr) (role : Role) : Q b (e.read role) := by
  have hclosed : ReadClosed fun _ m => Q b m :=
    ⟨h.pure (), fun hm hn => h.bind hm fun _ => hn, h.readVariable⟩
  exact e.read_induction hclosed role

end LookClosed

namespace NoteClosed

theorem keepDoc (h : NoteClosed Q) (text : String) (range : Range) : Q b (keepDoc text range) := by
  unfold PhpFlow.keepDoc
  split
  · exact h.setDoc _
  · exact h.pure ()

theorem applyVars (h : NoteClosed Q) (assigned : Option String)
    (tags : List (String × Option String × Range)) : Q true (applyVars assigned tags) := by
  induction tags with
  | nil => exact h.pure ()
  | cons tag rest ih =>
    obtain ⟨type, name, range⟩ := tag
    rw [PhpFlow.applyVars]
    split
    · exact ih
    · refine h.bind (h.readDocType type range) fun u => ?_
      cases u with
      | none => exact ih
      | some u => exact h.bind (h.comment _ u) fun _ => ih

theorem applyDoc (h : NoteClosed Q) (assigned : Option String) : Q true (applyDoc assigned) := by
  rw [applyDoc_eq]
  exact h.bind h.waiting fun tags => h.bind (h.setDoc none) fun _ => h.applyVars assigned tags

end NoteClosed

namespace StepClosed

theorem writeElement (h : StepClosed Q) (r : Range) (base : Expr) (index : Option Expr) (u : TypeUnion) :
    Q true (writeElement r base index u) := by
  unfold PhpFlow.writeElement
  split
  · exact h.missing _ _
  · exact h.bind h.currentScope fun _ => h.write _ _ _

theorem bindParameter (h : StepClosed Q) (doc : Option DocComment) (p : Parameter) :
    Q true (bindParameter doc p) := by
  refine h.bind (h.readParameterType p) fun _ => h.bind (h.readParameterDoc doc p.name) fun _ => ?_
  split
  · exact h.bind (h.pure none) fun _ => h.bind (h.note _ fun _ => ⟨_, _, _, _, _, rfl⟩) fun _ =>
      h.write _ _ _
  · exact h.bind (h.value _) fun _ => h.bind (h.note _ fun _ => ⟨_, _, _, _, _, rfl⟩) fun _ =>
      h.write _ _ _

theorem bindParameters (h : StepClosed Q) (doc : Option DocComment) (ps : List Parameter) :
    Q true (bindParameters doc ps) := by
  induction ps with
  | nil => exact h.pure ()
  | cons p ps ih => exact h.bind (h.bindParameter doc p) fun _ => ih

theorem declareGlobals (h : StepClosed Q) (vs : List VariableName) : Q true (declareGlobals vs) := by
  induction vs with
  | nil => exact h.bind h.currentScope fun _ => h.pure ()
  | cons v vs ih =>
    refine h.bind (h.note _ fun _ => ⟨_, _, _, _, _, rfl⟩) fun _ => h.bind h.currentScope fun scope => ?_
    split
    · exact h.bind (h.write _ _ _) fun _ => ih
    · exact ih

end StepClosed

end Small

section Storing

/-- A property of steps and the variables they write that storing what is known of an expression takes over
from its parts. A value is kept only where it may be. -/
structure StoreClosed (Q : List String → {α : Type} → Step α → Prop) : Prop where
  pure : ∀ {α : Type} (a : α), Q [] (pure a)
  bind : ∀ {xs ys : List String} {α β : Type} {m : Step α} {f : α → Step β}, Q xs m → (∀ a, Q ys (f a)) →
    Q (xs ++ ys) (m >>= f)
  query : ∀ {α : Type} {q : Query α}, Asked q → Q [] (Step.query q)
  keepValue : ∀ v, Q [] (keepValue v)
  write : ∀ name u v r, Q [name] (do let v ← PhpFlow.keepValue v; Step.write name u v r)
  writeElement : ∀ r base index u, Q (base.root?.map (·.name)).toList (writeElement r base index u)
  caughtType : ∀ types, Q [] (Step.get (caughtType types))

variable {Q : List String → {α : Type} → Step α → Prop}

theorem StoreClosed.after (h : StoreClosed Q) {xs : List String} {α β : Type} {m : Step α} {f : α → Step β}
    (hm : Q [] m) (hf : ∀ a, Q xs (f a)) : Q xs (m >>= f) :=
  h.bind hm hf

theorem StepClosed.stores {Q : Bool → {α : Type} → Step α → Prop} (h : StepClosed Q)
    (hwrite : ∀ name u v r, Q true (do let v ← keepValue v; Step.write name u v r)) :
    StoreClosed fun _ _ m => Q true m where
  pure := h.pure
  bind := h.bind
  query := h.query
  keepValue _ := h.get fun _ => rfl
  write := hwrite
  writeElement := h.writeElement
  caughtType _ := h.get fun _ => rfl

mutual

theorem Expr.write_induction (h : StoreClosed Q) (e : Expr) (u : TypeUnion) (v : Option Value) :
    Q e.targets (e.write u v) := by
  cases e with
  | paren r a => exact a.write_induction h u v
  | var r n =>
    rw [Expr.write, Expr.targets]
    split
    · exact h.pure ()
    · exact h.write n u v (some r)
  | subscript r b i => exact h.writeElement r b i u
  | array r es => exact h.bind (h.keepValue v) fun v => writeElements_induction h 0 u v es
  | _ => exact h.query (.report (by decide) _ _)

theorem writeElements_induction (h : StoreClosed Q) (next : Int) (u : TypeUnion) (v : Option Value)
    (es : List Element) : Q (elementTargets es) (writeElements next u v es) := by
  cases es with
  | nil => exact h.pure ()
  | cons e es =>
    obtain ⟨_, target, k, _, _⟩ := e
    exact h.after (h.query (.key k)) fun key => h.bind (target.write_induction h _ _) fun _ =>
      writeElements_induction h _ u v es

end

namespace StoreClosed

variable (h : StoreClosed Q)

include h

theorem storeFrom (target source : Expr) (keepsValue : Bool) :
    Q target.targets (target.storeFrom source keepsValue) := by
  refine h.bind (h.query (.type source)) fun u => ?_
  cases keepsValue with
  | true => exact h.bind (h.query (.value source)) fun v => target.write_induction h _ v
  | false => exact target.write_induction h _ none

theorem storeUpdate (r : Range) (op : String) (argument : Expr) (before : Bool) :
    Q argument.targets (Expr.storeUpdate r op argument before) :=
  h.bind (h.query (.value argument)) fun v => h.bind (h.query (.updatedValue op v)) fun w =>
    h.bind (h.query (.type (.update r op argument before))) fun _ => argument.write_induction h _ w

theorem bindElement (k : Option Expr) (v : Expr) (types : TypeUnion × TypeUnion) :
    Q ((k.map Expr.targets).getD [] ++ v.targets) (bindElement k v types) := by
  cases k with
  | none => exact v.write_induction h _ _
  | some k => exact h.bind (k.write_induction h _ _) fun _ => v.write_induction h _ _

theorem bindCaught (types : List String) (v : Option VariableName) :
    Q ((v.map fun v => (Expr.var v.range v.name).targets).getD []) (bindCaught types v) := by
  cases v with
  | none => exact h.pure ()
  | some v => exact h.after (h.caughtType types) fun _ => Expr.write_induction h (.var v.range v.name) _ _

end StoreClosed

end Storing

end PhpFlow
