import PhpFlow.Proofs.Forgetting
import PhpFlow.Proofs.Waiting

/-!
# Comments at the end of a list

A doc comment waits for the next statement. Behind the last statement of a list there is none, so it is still
waiting when the list is left, and the next statement that is analysed anywhere takes it. Only its `@var` tags
count then: without tags it makes no difference to the analysis, wherever the list stands.
-/
namespace PhpFlow

open List

theorem analyzeStatements_append (ss ss' : List Stmt) (k : NodeKind) :
    analyzeStatements (ss ++ ss') k = Step.andThen (analyzeStatements ss k) (analyzeStatements ss' k) := by
  induction ss with
  | nil =>
    rw [List.nil_append, analyzeStatements]
    rfl
  | cons x ss ih =>
    rw [List.cons_append]
    by_cases hcomment : ∃ r t, x = .comment r t
    · obtain ⟨r, t, rfl⟩ := hcomment
      rw [analyzeStatements, analyzeStatements, ih]
      exact (Step.bind_assoc _ _ _).symm
    · have hx : ∀ r t, x = .comment r t → False := fun r t he => hcomment ⟨r, t, he⟩
      rw [analyzeStatements.eq_3 _ _ _ hx, analyzeStatements.eq_3 _ _ _ hx, ih, ← andThen_assoc]
      exact (Step.bind_assoc _ _ _).symm

section Code

theorem Stmt.alike (s : Stmt) (k : NodeKind) : (s.analyze k).Alike (s.analyze k) :=
  s.analyze_induction (b := true) analysisClosed_alike s.throughout_anyCode (fun _ _ => trivial) k

theorem Expr.alike (e : Expr) (k : NodeKind) : (e.evaluate k).Alike (e.evaluate k) :=
  e.evaluate_induction (b := true) analysisClosed_alike e.throughout_anyCode k

theorem alike_all (es : List Expr) (k : NodeKind) : (evaluateAll es k).Alike (evaluateAll es k) := by
  induction es with
  | nil => exact .pure true
  | cons e es ih => exact .andThen (e.alike k) ih

theorem alike_statements (ss : List Stmt) (k : NodeKind) :
    (analyzeStatements ss k).Alike (analyzeStatements ss k) := by
  have hss := (Stmt.block .zero ss).throughout_anyCode
  rw [Stmt.throughout, Bool.and_eq_true] at hss
  exact analyzeStatements_induction analysisClosed_alike ss hss.2 (fun _ _ => trivial) k

theorem alike_elseIfs (cs cs' cs'' : List ElseIf) {last last' : Step Bool}
    (h : (analyzeElseIfs cs' last).Alike (analyzeElseIfs cs'' last')) :
    (analyzeElseIfs (cs ++ cs') last).Alike (analyzeElseIfs (cs ++ cs'') last') := by
  induction cs with
  | nil => exact h
  | cons c cs ih =>
    obtain ⟨_, c, x⟩ := c
    exact .andThen (c.alike _) (.choice c (x.alike _) ih)

theorem alike_caseArms (cs cs' cs'' : List Case) (h : Forall₂ Step.Alike (caseArms cs') (caseArms cs'')) :
    Forall₂ Step.Alike (caseArms (cs ++ cs')) (caseArms (cs ++ cs'')) := by
  induction cs with
  | nil => exact h
  | cons c cs ih =>
    obtain ⟨_, v, ss⟩ := c
    exact .cons (.andThen (alike_all _ _) (alike_statements ss _)) ih

theorem alike_catchArms (cs cs' cs'' : List Catch)
    (h : Forall₂ Step.Alike (catchArms cs') (catchArms cs'')) :
    Forall₂ Step.Alike (catchArms (cs ++ cs')) (catchArms (cs ++ cs'')) := by
  induction cs with
  | nil => exact h
  | cons c cs ih =>
    obtain ⟨_, ts, x, v⟩ := c
    exact .cons (.bind (storeClosed_alike.bindCaught ts v) fun _ => x.alike _) ih

theorem alike_methods (ms ms' ms'' : List Method)
    (h : (analyzeMethods ms').Alike (analyzeMethods ms'')) :
    (analyzeMethods (ms ++ ms')).Alike (analyzeMethods (ms ++ ms'')) := by
  induction ms with
  | nil => exact h
  | cons m ms ih =>
    have hm := (Stmt.method m).alike .method
    rw [Stmt.analyze] at hm
    exact .bind hm fun _ => ih

end Code

/-- A place in code where a list of statements stands. -/
inductive Place : (List Stmt → Stmt) → Prop
  | program (r) : Place (.program r)
  | block (r) : Place (.block r)
  | for_ (r is cs ns) : Place (.for_ r is cs ns)
  | case (r e cs q v cs') : Place fun ss => .switch r e (cs ++ ⟨q, v, ss⟩ :: cs')
  | among {F G} (pre post) : Place F → Place G → Place fun ss => F (pre ++ G ss :: post)
  | then_ {F} (r c eis e) : Place F → Place fun ss => .ifElse r c (F ss) eis e
  | elseIf {F} (r c x eis q d eis' e) : Place F → Place fun ss => .ifElse r c x (eis ++ ⟨q, d, F ss⟩ :: eis') e
  | else_ {F} (r c x eis q) : Place F → Place fun ss => .ifElse r c x eis (some ⟨q, F ss⟩)
  | while_ {F} (r c) : Place F → Place fun ss => .while_ r c (F ss)
  | doWhile {F} (r c) : Place F → Place fun ss => .doWhile r (F ss) c
  | foreach {F} (r i v k byRef) : Place F → Place fun ss => .foreach r i v (F ss) k byRef
  | try_ {F} (r cs f) : Place F → Place fun ss => .try_ r (F ss) cs f
  | catch_ {F} (r x cs q ts v cs' f) : Place F → Place fun ss => .try_ r x (cs ++ ⟨q, ts, F ss, v⟩ :: cs') f
  | finally_ {F} (r x cs) : Place F → Place fun ss => .try_ r x cs (some (F ss))
  | function {F} (f : Function) : Place F → Place fun ss => .function { f with body := some (F ss) }
  | method {F} (r n p is ms) (f : Function) (isStatic ms' isInterface) : Place F → Place fun ss =>
      .class_ r n p is (ms ++ ⟨{ f with body := some (F ss) }, isStatic⟩ :: ms') isInterface
  | namespace_ {F} (r n) : Place F → Place fun ss => .namespace_ r n (some (F ss))

namespace Place

variable {F : List Stmt → Stmt} {ss ss' : List Stmt}

theorem ne_comment (hF : Place F) (ss : List Stmt) (r : Range) (t : String) : F ss ≠ .comment r t := by
  induction hF generalizing ss with
  | among _ _ _ _ ih => exact ih _
  | _ => simp

theorem assigned_eq (hF : Place F) (ss ss' : List Stmt) : (F ss).assigned? = (F ss').assigned? := by
  induction hF generalizing ss ss' with
  | among _ _ _ _ ih => exact ih _ _
  | _ => rfl

theorem alike (hF : Place F) (h : ∀ k, (analyzeStatements ss k).Alike (analyzeStatements ss' k)) (k : NodeKind) :
    ((F ss).analyze k).Alike ((F ss').analyze k) := by
  have helse (e : Option Else) : (analyzeElse e).Alike (analyzeElse e) := by
    rcases e with _ | ⟨_, b⟩
    · exact .pure true
    · exact b.alike _
  have hlast (f : Option Stmt) : (analyzeFinally f).Alike (analyzeFinally f) := by
    cases f with
    | none => exact .pure true
    | some f => exact f.alike _
  have hcatches (cs : List Catch) : Forall₂ Step.Alike (catchArms cs) (catchArms cs) := by
    simpa using alike_catchArms cs [] [] .nil
  have helseIfs (cs : List ElseIf) {last last' : Step Bool} (hl : last.Alike last') :
      (analyzeElseIfs cs last).Alike (analyzeElseIfs cs last') := by
    simpa using alike_elseIfs cs [] [] hl
  induction hF generalizing ss ss' k <;> try simp only [Stmt.analyze, tryArms_eq, any_append, any_cons]
  case program | block => exact .guarded _ _ (h _)
  case for_ r is cs ns =>
    exact .guarded _ _ (.andThen (alike_all is _) (.andThen (alike_all cs _)
      (.detour (makesBranch_forBranch cs) (.inLoop (.andThen (h _) (alike_all ns _))) .onFalse)))
  case case r e cs q v cs' =>
    have hcs' : Forall₂ Step.Alike (caseArms cs') (caseArms cs') := by simpa using alike_caseArms cs' [] [] .nil
    exact .guarded _ _ (.andThen (e.alike _) (.switchArms _ (alike_caseArms cs _ _
      (.cons (.andThen (alike_all _ _) (h _)) hcs'))))
  case among F G pre post _ hG ihF ihG =>
    refine ihF (fun k => ?_) k
    rw [analyzeStatements_append, analyzeStatements_append]
    refine .andThen (alike_statements pre k) ?_
    rw [analyzeStatements.eq_3 _ _ _ (hG.ne_comment ss), analyzeStatements.eq_3 _ _ _ (hG.ne_comment ss'),
      hG.assigned_eq ss ss']
    exact .bind (forkClosed_alike.small.applyDoc _) fun _ => .andThen (ihG h k) (alike_statements post k)
  case then_ r c eis e _ ih =>
    exact .guarded _ _ (.andThen (c.alike _) (.choice c (ih h _) (helseIfs eis (helse e))))
  case elseIf r c x eis q d eis' e _ ih =>
    exact .guarded _ _ (.andThen (c.alike _) (.choice c (x.alike _) (alike_elseIfs eis _ _
      (.andThen (d.alike _) (.choice d (ih h _) (helseIfs eis' (helse e)))))))
  case else_ r c x eis q _ ih =>
    exact .guarded _ _ (.andThen (c.alike _) (.choice c (x.alike _) (helseIfs eis (ih h _))))
  case while_ r c _ ih =>
    exact .guarded _ _ (.andThen (c.alike _) (.detour (.condition c .onTrue) (.inLoop (ih h _)) .onFalse))
  case doWhile r c _ ih => exact .guarded _ _ (.andThen (.inLoop (ih h _)) (c.alike _))
  case foreach r i v key byRef _ ih =>
    exact .guarded _ _ (.andThen (i.alike _) (.bind (.query (.type i)) fun _ =>
      .detour (.current .onTrue) (.inLoop (.bind (storeClosed_alike.bindElement key v _) fun _ => ih h _)) .onFalse))
  case try_ r cs f _ ih =>
    exact .guarded _ _ (.andThen (.switchArms true (.cons (ih h _) (hcatches cs))) (hlast f))
  case catch_ r x cs q ts v cs' f _ ih =>
    exact .guarded _ _ (.andThen (.switchArms true (.cons (x.alike _) (alike_catchArms cs _ _
      (.cons (.bind (storeClosed_alike.bindCaught ts v) fun _ => ih h _) (hcatches cs'))))) (hlast f))
  case finally_ r x cs _ ih =>
    exact .guarded _ _ (.andThen (.switchArms true (.cons (x.alike _) (hcatches cs))) (ih h _))
  case function f _ ih => exact .guarded _ _ (.bind (f.alike_define (ih h _)) fun _ => .pure true)
  case method r n p is ms f isStatic ms' isInterface _ ih =>
    have hms' : (analyzeMethods ms').Alike (analyzeMethods ms') := by simpa using alike_methods ms' [] [] (.pure ())
    exact .bind (.get fun _ _ => rfl) fun name => .bind (.inClass name (alike_methods ms _ _ (.bind
      (.guarded _ _ (.bind (Method.alike_define ⟨f, isStatic⟩ (ih h _)) fun _ => .pure true)) fun _ => hms')))
      fun _ => .pure true
  case namespace_ r n _ ih =>
    refine .bind (.modify fun _ _ => rfl) fun _ => .bind (.get fun _ _ => rfl) fun _ => ?_
    exact .bind (.modify fun _ _ => rfl) fun _ => .ensuring (ih h _) (.modify fun _ _ => rfl)

end Place

section Trailing

variable {x : Stmt} {r : Range} {t : String}

theorem analyzeStatements_trailing (ss : List Stmt) (r : Range) (t : String) (k : NodeKind) (s : State) :
    let run := analyzeStatements ss k s
    analyzeStatements (ss ++ [.comment r t]) k s = (run.1,
      if run.1.toOption = some true ∧ t.startsWith "/**" then { run.2 with pendingDoc := some ⟨t, r⟩ } else run.2) := by
  have hlast : ∀ u, analyzeStatements [.comment r t] k u =
      (.ok true, if t.startsWith "/**" then { u with pendingDoc := some ⟨t, r⟩ } else u) := by
    intro u
    rw [analyzeStatements, keepDoc, analyzeStatements]
    split <;> rfl
  intro run
  rw [analyzeStatements_append]
  change Step.bind _ _ s = _
  rw [Step.bind]
  cases hrun : run with
  | mk result u =>
    rw [show analyzeStatements ss k s = (result, u) from hrun]
    rcases result with e | _ | _
    · simp [Except.toOption]
    · simp [Except.toOption, Pure.pure, Step.pure]
    · simp [Except.toOption, hlast]

instance : Onward fun s t => s.waiting = [] → t.waiting = [] where
  trans hst htu hs := htu (hst hs)
  sink _ _ h := h

/-- Where no tags are waiting, the step leaves none behind. -/
abbrev Step.Settles {α : Type} (m : Step α) : Prop := m.Shifts fun s t => s.waiting = [] → t.waiting = []

def Stmt.Settles (x : Stmt) : Prop := (∀ r t, x ≠ .comment r t) ∧ ∀ k, (x.analyze k).Settles

theorem settles_applyVars (assigned : Option String) (tags : List (String × Option String × Range)) :
    (applyVars assigned tags).Settles := by
  induction tags with
  | nil => exact .pure ()
  | cons tag rest ih =>
    obtain ⟨type, name, range⟩ := tag
    rw [applyVars]
    split
    · exact ih
    · refine .bind (.bind (.get _) fun u => ?_) fun u => ?_
      · cases u with
        | ok u => exact .pure _
        | error e => exact .bind (.query _) fun _ => .pure none
      · cases u with
        | none => exact ih
        | some u =>
          refine .bind (.bind (.getFault _) fun _ s hs => ?_) fun _ => ih
          unfold Step.onArena
          split <;> exact hs

theorem waiting_applyDoc (assigned : Option String) (s : State) : (applyDoc assigned s).2.waiting = [] := by
  rw [applyDoc_eq]
  exact settles_applyVars assigned s.waiting { s with pendingDoc := none } rfl

theorem Stmt.Settles.waiting (hx : x.Settles) (ss : List Stmt) (k : NodeKind) (s : State)
    (h : (analyzeStatements (ss ++ [x]) k s).1 = .ok true) : (analyzeStatements (ss ++ [x]) k s).2.waiting = [] := by
  have hlast : (Step.andThen (x.analyze k) (analyzeStatements [] k)).Settles := by
    refine .bind (hx.2 k) fun ok => ?_
    rw [analyzeStatements]
    cases ok <;> exact .pure _
  rw [analyzeStatements_append, Step.andThen] at h ⊢
  rcases hss : analyzeStatements ss k s with ⟨e | ok, u⟩
  · rw [Step.bind_eq_of_error hss] at h
    cases h
  · rw [Step.bind_eq_of_ok hss] at h ⊢
    cases ok with
    | false => cases h
    | true =>
      have hdoc := waiting_applyDoc x.assigned? u
      rw [if_pos rfl, analyzeStatements.eq_3 _ _ _ hx.1]
      rcases hu : applyDoc x.assigned? u with ⟨e | _, v⟩ <;> rw [hu] at hdoc
      · rwa [Step.bind_eq_of_error hu]
      · rw [Step.bind_eq_of_ok hu]
        exact hlast v hdoc

theorem alike_trailing (hx : x.Settles) (ht : t.startsWith "/**" = true → (DocComment.ofText t r).vars = [])
    (ss : List Stmt) (k : NodeKind) :
    (analyzeStatements (ss ++ [x]) k).Alike (analyzeStatements (ss ++ [x, .comment r t]) k) := by
  rw [show ss ++ [x, .comment r t] = ss ++ [x] ++ [.comment r t] by simp]
  intro s u h
  obtain ⟨result, v, d, hs, hu, hw⟩ := (alike_statements (ss ++ [x]) k).cases h
  have hv := hx.waiting ss k s
  rw [hs] at hv
  rw [analyzeStatements_trailing, hs, hu]
  refine ⟨rfl, ?_⟩
  split
  · next hc =>
    have hok : result = .ok true := by
      rcases result with e | ok <;> simp_all [Except.toOption]
    exact ⟨some ⟨t, r⟩, rfl, (ht hc.2).trans (hv hok).symm⟩
  · exact ⟨d, rfl, hw⟩

/-- A comment behind the statements of a list changes nothing up to the end of the list but the comment that is
waiting there, and that only if the end is reached. If it has no tags and the last statement leaves none waiting,
the analysis of all the code around the list ends the same, whatever comes after the comment. -/
theorem trailing_comment_only_waits (ss : List Stmt) (r : Range) (t : String) (k : NodeKind) (s : State) :
    (let run := analyzeStatements ss k s
    analyzeStatements (ss ++ [.comment r t]) k s = (run.1,
      if run.1.toOption = some true ∧ t.startsWith "/**" then { run.2 with pendingDoc := some ⟨t, r⟩ } else run.2)) ∧
    ∀ F x, Place F → x.Settles → (t.startsWith "/**" → (DocComment.ofText t r).vars = []) →
      ((F (ss ++ [x, .comment r t])).analyze k s).1 = ((F (ss ++ [x])).analyze k s).1 ∧
      ((F (ss ++ [x])).analyze k s).2.Alike ((F (ss ++ [x, .comment r t])).analyze k s).2 :=
  ⟨analyzeStatements_trailing ss r t k s, fun _ _ hF hx ht =>
    hF.alike (alike_trailing hx ht ss) k ⟨s.pendingDoc, rfl, rfl⟩⟩

/-- `while ($a) { break; /** note */ } $b = 1;` -/
theorem note_behind_break :
    let code (ss : List Stmt) : Stmt := .program .zero ([] ++ .while_ .zero (.var .zero "a") (.block .zero ss) ::
      [.expression .zero (.assign .zero (.var .zero "b") (.integer .zero 1) false)])
    let run (ss : List Stmt) := (code ss).analyze .program (.new {} {} none .discarding)
    (run [.break_ .zero, .comment .zero "/** note */"]).1 = (run [.break_ .zero]).1 ∧
      (run [.break_ .zero]).2.Alike (run [.break_ .zero, .comment .zero "/** note */"]).2 :=
  (trailing_comment_only_waits [] .zero "/** note */" .program (.new {} {} none .discarding)).2 _ _
    (.among [] _ (.program .zero) (.while_ .zero _ (.block .zero)))
    ⟨by simp, fun k s h => by rwa [Stmt.analyze]⟩ (by decide +kernel)

end Trailing

/-- `{ /** @var int $a */ } $b = 1;`, with or without the comment -/
def closedBlock (comments : List Stmt) : Stmt :=
  .program .zero [.block .zero comments,
    .expression .zero (.assign .zero (.var .zero "b") (.integer .zero 1) false)]

theorem comment_leaves_its_block :
    let names (comments : List Stmt) :=
      ((closedBlock comments).analyze .program (.new {} {} none .discarding)).2.currentScope.toOption.map
        fun sc => sc.vars.map (·.name)
    names [] = some ["b"] ∧ names [.comment .zero "/** @var int $a */"] = some ["a", "b"] := by
  decide +kernel

end PhpFlow
