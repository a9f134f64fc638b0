import PhpFlow.Proofs.Extent

/-!
# The depth of nesting

The reader of alternatives is given a bound on the depth of nesting. Each level takes a character at least,
so any bound that is not below the length of the text gives the same answer. The reader may as well be
thought of as one without a bound that calls itself.
-/
namespace PhpFlow

open List

namespace Reader

variable {α β : Type} {N k : Nat}
variable {x : List Char}

/-! ## Reading the same -/

/-- Both fail, or both read the same and leave fewer than `k` characters. -/
def Same (k : Nat) (o o' : Option (α × List Char)) : Prop :=
  o = o' ∧ ∀ a y, o = some (a, y) → y.length < k

/-- The readers do the same on texts shorter than `N`, and what they read is not empty. -/
def Alike (N : Nat) (r r' : Reader α) : Prop := ∀ x, x.length < N → Same x.length (r x) (r' x)

section Same

variable {o o' p p' : Option (α × List Char)}

theorem Same.none : Same k (none : Option (α × List Char)) none := ⟨rfl, nofun⟩

theorem Same.some (a : α) {y : List Char} (h : y.length < k) : Same k (some (a, y)) (some (a, y)) := by
  refine ⟨rfl, ?_⟩
  rintro _ _ ⟨⟩
  exact h

theorem Same.mono {n : Nat} (h : Same k o o') (hk : k ≤ n) : Same n o o' :=
  ⟨h.1, fun a y ho => Nat.lt_of_lt_of_le (h.2 a y ho) hk⟩

theorem Same.bind {f f' : α × List Char → Option (β × List Char)} (h : Same k o o')
    (hf : ∀ a y, y.length < k → Same k (f (a, y)) (f' (a, y))) : Same k (o.bind f) (o'.bind f') := by
  obtain ⟨rfl, hlt⟩ := h
  cases o with
  | none => exact .none
  | some r => exact hf r.1 r.2 (hlt _ _ rfl)

theorem Same.map {f : α × List Char → β × List Char} (h : Same k o o')
    (hf : ∀ a y, (f (a, y)).2.length ≤ y.length) : Same k (o.map f) (o'.map f) := by
  obtain ⟨rfl, hlt⟩ := h
  cases o with
  | none => exact .none
  | some r => exact .some _ (Nat.lt_of_le_of_lt (hf r.1 r.2) (hlt _ _ rfl))

theorem Same.or (h : Same k o o') (hp : Same k p p') : Same k (o.or p) (o'.or p') := by
  obtain ⟨rfl, hlt⟩ := h
  cases o with
  | none => exact hp
  | some r => exact ⟨rfl, hlt⟩

theorem same_char_skip (c : Char) (x : List Char) : Same x.length (char c (skip x)) (char c (skip x)) :=
  ⟨rfl, fun _ _ => length_of_char_skip⟩

theorem same_closing (c : Char) (a : α) (x : List Char) : Same x.length (closing c a x) (closing c a x) :=
  ⟨rfl, fun _ _ => length_of_closing⟩

theorem same_keyword (w : Char) (ws x : List Char) :
    Same x.length (keyword (w :: ws) x) (keyword (w :: ws) x) :=
  ⟨rfl, fun _ _ => length_of_keyword⟩

end Same

variable {r r' part part' : Reader α}

theorem Shrinks.same (h : Shrinks r) (x : List Char) : Same x.length (r x) (r x) := ⟨rfl, h x⟩

theorem Shrinks.alike (h : Shrinks r) (N : Nat) : Alike N r r := fun x _ => h.same x

theorem Alike.mono {M : Nat} (h : Alike N r r') (hM : M ≤ N) : Alike M r r' :=
  fun x hx => h x (Nat.lt_of_lt_of_le hx hM)

theorem Alike.skip (h : Alike N r r') (hx : x.length < N) :
    Same x.length (r (Reader.skip x)) (r' (Reader.skip x)) :=
  (h _ (Nat.lt_of_le_of_lt (length_skip_le x) hx)).mono (length_skip_le x)

/-! ## Lists -/

theorem Alike.more (h : Alike N part part') (sep : Char) (n : Nat) (hx : x.length ≤ N) :
    more sep part n x = more sep part' n x ∧ (more sep part n x).2.length ≤ x.length := by
  induction n generalizing x with
  | zero => exact ⟨rfl, Nat.le_refl _⟩
  | succ n ih =>
    rw [Reader.more, Reader.more]
    split
    · exact ⟨rfl, Nat.le_refl _⟩
    · next after hchar =>
      have hafter := length_of_char_skip hchar
      obtain ⟨hpart, hlt⟩ := h.skip (x := after) (by omega)
      rw [← hpart]
      split
      · exact ⟨rfl, Nat.le_refl _⟩
      · next a rest hrest =>
        have hrest := hlt _ _ hrest
        obtain ⟨hmore, hle⟩ := ih (x := rest) (by omega)
        rw [← hmore]
        exact ⟨rfl, by dsimp only; omega⟩

theorem Alike.separated (h : Alike N part part') (sep : Char) :
    Alike N (separated sep part) (separated sep part') := by
  intro x hx
  obtain ⟨hpart, hlt⟩ := h x hx
  unfold Reader.separated
  rw [← hpart]
  split
  · exact .none
  · next a rest hrest =>
    have hrest := hlt _ _ hrest
    obtain ⟨hmore, hle⟩ := h.more sep rest.length (x := rest) (by omega)
    rw [← hmore]
    exact .some _ (by omega)

theorem Alike.listed (h : Alike N part part') (hx : x.length < N) :
    listed part x = listed part' x ∧ (listed part x).2.length ≤ x.length := by
  obtain ⟨hlist, hlt⟩ := (h.separated ',').skip hx
  unfold Reader.listed
  rw [← hlist]
  refine ⟨rfl, ?_⟩
  cases hsome : Reader.separated ',' part (Reader.skip x) with
  | none => exact length_skip_le x
  | some r => exact Nat.le_of_lt (hlt _ _ hsome)

theorem length_lastComma_le (x : List Char) : (lastComma x).length ≤ x.length := by
  have hskip := length_skip_le x
  unfold lastComma
  split
  · next rest heq =>
    rw [heq, length_cons] at hskip
    omega
  · exact hskip

/-! ## Unions, entries, arguments and results -/

variable {alt alt' : Reader TypeAlternative} {u u' : Reader TypeExpr}

theorem Alike.union (h : Alike N alt alt') : Alike N (union alt) (union alt') :=
  fun _ hx => ((h.separated _).skip hx).map fun _ _ => Nat.le_refl _

theorem Alike.entry (h : Alike N u u') : Alike N (entry u) (entry u') := by
  intro x hx
  unfold Reader.entry
  split
  · next l optional rest hlabel =>
    have hrest := shrinks_entryLabel _ _ _ hlabel
    exact ((h.skip (x := rest) (by omega)).map fun _ _ => Nat.le_refl _).mono (by omega)
  · exact (h.skip hx).map fun _ _ => Nat.le_refl _

theorem Alike.argument (h : Alike N u u') : Alike N (argument u) (argument u') := by
  intro x hx
  refine (h x hx).map fun t rest => ?_
  have hskip := length_skip_le rest
  cases hname : argumentName (Reader.skip rest) with
  | none => simp [hname]
  | some left =>
    have hle := length_of_argumentName hname
    simp only [hname, Option.getD_some]
    omega

theorem Alike.parenthesized (h : Alike N alt alt') :
    Alike (N + 1) (parenthesized alt) (parenthesized alt') := by
  intro x hx
  by_cases hparen : ∃ z, x = '(' :: z
  · obtain ⟨z, rfl⟩ := hparen
    rw [length_cons] at hx ⊢
    rw [parenthesized_cons, parenthesized_cons]
    refine ((h.union.skip (x := z) (by omega)).mono (Nat.le_succ _)).bind fun t y hy => ?_
    exact (same_closing ')' t y).mono (Nat.le_of_lt hy)
  · have hne (z : List Char) (hz : x = '(' :: z) : False := hparen ⟨z, hz⟩
    rw [parenthesized_of_ne alt hne, parenthesized_of_ne alt' hne]
    exact .none

theorem Alike.result (h : Alike N alt alt') : Alike N (result alt) (result alt') := by
  intro x hx
  rw [result_eq, result_eq]
  exact (h.parenthesized x (by omega)).or ((h x hx).map fun _ _ => Nat.le_refl _)

/-! ## Heads -/

theorem Alike.shape (h : Alike N u u') : Alike (N + 1) (shape u) (shape u') := by
  intro x hx
  rw [shape_eq, shape_eq]
  refine (same_keyword _ _ x).bind fun _ y hy =>
    ((same_char_skip '\x7b' y).mono (Nat.le_of_lt hy)).bind fun _ z hz => ?_
  obtain ⟨hlist, hle⟩ := h.entry.listed (x := z) (by omega)
  have hcomma := length_lastComma_le (Reader.listed (Reader.entry u) z).2
  simp only [← hlist]
  exact (same_closing _ _ _).mono (by omega)

theorem Alike.afterArguments (h : Alike N alt alt') (args : List TypeExpr) (hx : x.length < N) :
    Same (x.length + 1) (afterArguments alt args x) (afterArguments alt' args x) := by
  unfold Reader.afterArguments
  have hle := length_skip_le x
  split
  · next left heq =>
    rw [heq, length_cons] at hle
    obtain ⟨hresult, hlt⟩ := h.result.skip (x := left) (by omega)
    rw [← hresult]
    split
    · next t rest hrest =>
      have hrest := hlt _ _ hrest
      exact .some _ (by omega)
    · exact .some _ (Nat.lt_succ_self _)
  · exact .some _ (Nat.lt_succ_self _)

theorem Alike.callable (h : Alike N alt alt') : Alike (N + 1) (callable alt) (callable alt') := by
  intro x hx
  rw [callable_eq, callable_eq]
  refine (same_keyword _ _ x).bind fun _ y hy =>
    ((same_char_skip '(' y).mono (Nat.le_of_lt hy)).bind fun _ z hz => ?_
  obtain ⟨hargs, hle⟩ := h.union.argument.listed (x := z) (by omega)
  simp only [← hargs]
  refine ((same_char_skip ')' _).mono (by omega)).bind fun _ s hs => ?_
  exact (h.afterArguments (x := s) _ (by omega)).mono hs

theorem Alike.tuple (h : Alike N u u') : Alike (N + 1) (tuple u) (tuple u') := by
  intro x hx
  unfold Reader.tuple
  split
  · next rest =>
    rw [length_cons] at hx ⊢
    obtain ⟨hitems, hlt⟩ := (h.separated ',').skip (x := rest) (by omega)
    rw [← hitems]
    split
    · next items left hsome =>
      have hleft := hlt _ _ hsome
      exact (same_closing _ _ _).mono (by omega)
    · exact .none
  · exact .none

theorem Alike.generic (h : Alike N u u') : Alike (N + 1) (generic u) (generic u') := by
  intro x hx
  unfold Reader.generic
  split
  · exact .none
  · next n rest hname =>
    have hrest := shrinks_name _ _ _ hname
    split
    · exact .none
    · next left hchar =>
      have hleft := length_of_char_skip hchar
      have hskip := length_skip_le left
      split
      · next last heq =>
        rw [heq, length_cons] at hskip
        exact (same_closing _ _ _).mono (by omega)
      · obtain ⟨hargs, hlt⟩ := h.separated ',' (Reader.skip left) (by omega)
        rw [← hargs]
        split
        · next args last hsome =>
          have hlast := hlt _ _ hsome
          exact (same_closing _ _ _).mono (by omega)
        · exact .none

theorem shrinks_constant : Shrinks constant := by
  intro x h y hx
  unfold constant at hx
  split at hx
  · cases hx
  · next owner rest hname =>
    have hlt := shrinks_name _ _ _ hname
    split at hx
    · next left heq =>
      obtain ⟨⟨w, rest'⟩, hword, hpair⟩ := Option.map_eq_some_iff.mp hx
      cases hpair
      have hlt' := shrinks_word _ _ _ hword
      have hskip := length_skip_le left
      have hle := length_skip_le rest
      rw [heq, length_cons, length_cons] at hle
      omega
    · cases hx

theorem Alike.head (h : Alike N alt alt') : Alike (N + 1) (head alt) (head alt') := by
  intro x hx
  unfold Reader.head
  simp only [Option.orElse_eq_orElse, Option.orElse_eq_or]
  exact (shrinks_constant.same x).or <| (h.union.shape x hx).or <| (h.callable x hx).or <|
    (h.union.tuple x hx).or <| (h.union.generic x hx).or <|
      (shrinks_name.same x).map fun _ _ => Nat.le_refl _

/-! ## Alternatives -/

theorem length_brackets_le (n : Nat) (x : List Char) : (brackets n x).2.length ≤ x.length := by
  induction n generalizing x with
  | zero => exact Nat.le_refl _
  | succ n ih =>
    rw [brackets]
    split
    · next rest heq =>
      have hskip := length_skip_le x
      have hle := ih rest
      rw [heq, length_cons, length_cons] at hskip
      dsimp only
      omega
    · exact Nat.le_refl _

theorem length_nullMark_le (x : List Char) : (nullMark x).2.length ≤ x.length := by
  unfold nullMark
  split
  · next rest =>
    have hskip := length_skip_le rest
    rw [length_cons]
    dsimp only
    omega
  · exact Nat.le_refl _

theorem Alike.alternativeStep (h : Alike N alt alt') :
    Alike (N + 1) (alternativeStep alt) (alternativeStep alt') := by
  intro x hx
  have hle := length_nullMark_le x
  rw [alternativeStep_eq, alternativeStep_eq]
  exact ((h.head _ (Nat.lt_of_le_of_lt hle hx)).map fun _ rest => length_brackets_le rest.length rest).mono hle

theorem alike_alternative_self (n N : Nat) : Alike N (alternative n) (alternative n) := by
  induction n with
  | zero => exact fun _ _ => .none
  | succ n ih => exact ih.alternativeStep.mono (Nat.le_succ N)

theorem alike_alternative {n m : Nat} (h : n ≤ m) : Alike (n + 1) (alternative n) (alternative m) := by
  induction n generalizing m with
  | zero =>
    intro x hx
    obtain ⟨-, hlt⟩ := alike_alternative_self m 1 x hx
    cases hread : alternative m x with
    | none => exact .none
    | some r =>
      have := hlt _ _ hread
      omega
  | succ n ih =>
    obtain ⟨m, rfl⟩ := Nat.exists_eq_succ_of_ne_zero (Nat.ne_zero_of_lt h)
    exact (ih (Nat.le_of_succ_le_succ h)).alternativeStep

def anyAlternative : Reader TypeAlternative := fun x => alternative x.length x

theorem alike_anyAlternative (n : Nat) : Alike (n + 1) (alternative n) anyAlternative := by
  intro x hx
  obtain ⟨hsame, -⟩ := alike_alternative (Nat.le_of_lt_succ hx) x (Nat.lt_succ_self _)
  obtain ⟨-, hlt⟩ := alike_alternative_self n (n + 1) x hx
  exact ⟨hsame.symm, hlt⟩

theorem shrinks_anyAlternative : Shrinks anyAlternative :=
  fun x a y => (alike_alternative_self x.length _ x (Nat.lt_succ_self _)).2 a y

theorem anyAlternative_eq : anyAlternative = alternativeStep anyAlternative := by
  funext x
  obtain ⟨hstep, -⟩ := (alike_anyAlternative x.length).alternativeStep x (by omega)
  rw [← hstep]
  exact (alike_alternative (Nat.le_succ x.length) x (Nat.lt_succ_self _)).1

theorem read?_eq (x : List Char) : TypeExpr.read? x = union anyAlternative x :=
  ((alike_anyAlternative x.length).union x (Nat.lt_succ_self _)).1

theorem union_anyAlternative_eq_none {d : Char} (hd : d ∈ ['\x7d', ')', ',']) (z : List Char) :
    union anyAlternative (d :: z) = none := by
  have hspace : Text.isSpace d = false :=
    forall_mem_of_all (p := fun d => Text.isSpace d = false) (by decide) d hd
  have hmark : d ≠ '?' := by
    rintro rfl
    exact absurd hd (by decide)
  rw [union, skip_cons hspace, separated, anyAlternative_eq, alternativeStep_eq, nullMark_cons hmark,
    head_eq_none hd]
  rfl

theorem entry_eq_none : ∀ d ∈ ['\x7d', ','], ∀ z, entry (union anyAlternative) (d :: z) = none := by
  intro d hd z
  have hspace : Text.isSpace d = false := forall_mem_of_all (p := fun d => Text.isSpace d = false) (by decide) d hd
  have hlabel : entryLabel (d :: z) = none := by
    rcases mem_cons.mp hd with rfl | hd
    · rfl
    · obtain rfl : d = ',' := mem_singleton.mp hd
      rfl
  have hnone : Reader.union anyAlternative (d :: z) = none :=
    union_anyAlternative_eq_none ((show ['\x7d', ','] ⊆ ['\x7d', ')', ','] by decide) hd) z
  rw [entry, hlabel]
  simp only [skip_cons hspace, hnone, Option.map_none]

end Reader

end PhpFlow
