import Mathlib.Data.List.TakeWhile
import Mathlib.Tactic.Conv
import PhpFlow.Proofs.Nesting

/-!
# Where a type ends

A reader takes as much as fits, so what it takes depends on what follows. It depends on it only in a few
characters, though: what was once taken for a type is taken for the same type at the end of a text, and in
front of every mark that does not go on with it.
-/
namespace PhpFlow

open List

namespace Reader

variable {α : Type} {N : Nat} {ds ds' c x y : List Char} {r part : Reader α} {a : α} {sep : Char}
variable {hd : TypeHead} {m : Char} {z ws : List Char}

/-! ## Where a part ends -/

def Firm (c : List Char) : Prop :=
  ∃ b d, c = b ++ [d] ∧ (isWordPart d = true ∨ d ∈ [')', '\x7d', '>', ']'])

theorem Firm.ne_nil (h : Firm c) : c ≠ [] := by
  obtain ⟨b, d, rfl, -⟩ := h
  simp

theorem Firm.append (h : Firm c) (b : List Char) : Firm (b ++ c) := by
  obtain ⟨b', d, rfl, hd⟩ := h
  exact ⟨b ++ b', d, by simp, hd⟩

theorem Firm.cons (h : Firm c) (d : Char) : Firm (d :: c) := h.append [d]

theorem Firm.append_of (h : Firm c) {b : List Char} (hb : b = [] ∨ Firm b) : Firm (c ++ b) := by
  rcases hb with rfl | hb
  · rwa [append_nil]
  · exact hb.append c

theorem firm_of_isWordPart (hne : c ≠ []) (h : ∀ d ∈ c, isWordPart d = true) : Firm c :=
  ⟨c.dropLast, c.getLast hne, (dropLast_concat_getLast hne).symm, .inl (h _ (getLast_mem hne))⟩

theorem firm_of_isWord (h : isWord c = true) : Firm c := by
  apply firm_of_isWordPart
  · rintro rfl
    cases h
  · exact fun d hd => isWordPart_of_mem_word h hd

theorem firm_of_isName (h : IsName c) : Firm c := by
  obtain ⟨ws, hne, hws, htext⟩ := h
  have hlast := firm_of_isWord (hws _ (getLast_mem hne))
  have hslashed : slashed ws = slashed ws.dropLast ++ '\\' :: ws.getLast hne := by
    conv_lhs => rw [← dropLast_concat_getLast hne]
    simp [slashed]
  rcases htext with rfl | htext
  · rw [hslashed]
    exact (hlast.cons '\\').append _
  · rw [hslashed] at htext
    cases hrest : slashed ws.dropLast with
    | nil =>
      rw [hrest] at htext
      cases htext
      exact hlast
    | cons d b =>
      rw [hrest] at htext
      cases htext
      exact (hlast.cons '\\').append _

theorem firm_concat {d : Char} (b : List Char) (h : d ∈ [')', '\x7d', '>', ']']) : Firm (b ++ [d]) :=
  ⟨b, d, rfl, .inr h⟩

/-- What the reader takes from a text shorter than `N`, it takes in front of each of `ds`. -/
def SettlesBelow (N : Nat) (ds : List Char) (r : Reader α) : Prop :=
  ∀ x a y, x.length < N → r x = some (a, y) → ∃ c, x = c ++ y ∧ Firm c ∧ Takes ds c r a

theorem SettlesBelow.mono (h : SettlesBelow N ds r) (hsub : ds' ⊆ ds) : SettlesBelow N ds' r := by
  intro x a y hx hr
  obtain ⟨c, hc, hfirm, htakes⟩ := h x a y hx hr
  exact ⟨c, hc, hfirm, htakes.mono hsub⟩

/-! ## Space before a part -/

/-- Space before a part is passed over whatever follows the part. -/
theorem exists_space_append (h : skip x = c ++ y) (hne : c ≠ []) :
    ∃ sp, x = sp ++ (c ++ y) ∧ ∀ y', skip (sp ++ (c ++ y')) = c ++ y' := by
  obtain ⟨sp, hsp, hx⟩ := exists_space x
  refine ⟨sp, by rw [← h]; exact hx, fun y' => ?_⟩
  cases c with
  | nil => exact absurd rfl hne
  | cons d c =>
    have hd : Text.isSpace d = false := isSpace_head_skip (x := x) (by rw [h]; rfl)
    exact skip_space_append hsp hd

theorem exists_space_cons (h : skip x = m :: y) :
    ∃ sp, x = sp ++ m :: y ∧ (∀ y', skip (sp ++ m :: y') = m :: y') ∧ ∀ d ∈ sp, Text.isSpace d = true := by
  obtain ⟨sp, hsp, hx⟩ := exists_space x
  have hm : Text.isSpace m = false := isSpace_head_skip (x := x) (by rw [h]; rfl)
  exact ⟨sp, by rw [← h]; exact hx, fun y' => skip_space_append hsp hm, hsp⟩

theorem skip_of_closing {close : Char} {b : α} (h : closing close a x = some (b, y)) :
    skip x = close :: y ∧ a = b := by
  obtain ⟨⟨_, rest⟩, hchar, heq⟩ := Option.map_eq_some_iff.mp h
  cases heq
  exact ⟨eq_cons_of_char hchar, rfl⟩

/-! ## Lists -/

/-- A list of parts may end in front of `y`, and one of `ds` or a separator follows. -/
structure EndsList (sep : Char) (part : Reader α) (ds y : List Char) : Prop where
  opens : Opens (sep :: ds) (skip y)
  rests : ∀ m, more sep part m y = ([], y)

theorem EndsList.of_opens (hsep : sep ∉ ds) (h : Opens ds (skip y)) : EndsList sep part ds y where
  opens := h.mono (subset_cons_self _ _)
  rests m := more_of_opens m hsep h

/-- Further parts of a list are taken again wherever a separator or one of `ds` follows. What comes after
them there is read on. -/
theorem exists_append_of_more (hpart : SettlesBelow N (sep :: ds) part) (n : Nat) {as : List α}
    (hx : x.length ≤ N) (h : more sep part n x = (as, y)) :
    ∃ c, x = c ++ y ∧ (c = [] ∨ Firm c) ∧ as.length ≤ c.length ∧
      ∀ y', Opens (sep :: ds) (skip y') → Opens (sep :: ds) (skip (c ++ y')) ∧
        ∀ m, more sep part (as.length + m) (c ++ y') =
          (as ++ (more sep part m y').1, (more sep part m y').2) := by
  induction n generalizing x as with
  | zero =>
    cases h
    exact ⟨[], rfl, .inl rfl, Nat.le_refl _, fun y' hy' => ⟨hy', fun m => by simp⟩⟩
  | succ n ih =>
    rw [more] at h
    split at h
    · cases h
      exact ⟨[], rfl, .inl rfl, Nat.le_refl _, fun y' hy' => ⟨hy', fun m => by simp⟩⟩
    · next after hchar =>
      split at h
      · cases h
        exact ⟨[], rfl, .inl rfl, Nat.le_refl _, fun y' hy' => ⟨hy', fun m => by simp⟩⟩
      · next a rest hrest =>
        have hlen := length_of_char_skip hchar
        have hskip := length_skip_le after
        obtain ⟨c, hc, hfirm, htakes⟩ := hpart _ _ _ (by omega) hrest
        have hlen' : (skip after).length = c.length + rest.length := by rw [hc, length_append]
        have hpair : more sep part n rest = ((more sep part n rest).1, y) := by
          cases h
          rfl
        obtain ⟨c', hc', hfirm', hcount, hmore⟩ := ih (by omega) hpair
        cases h
        obtain ⟨sp, hx, hsp, -⟩ := exists_space_cons (eq_cons_of_char hchar)
        obtain ⟨sp', hafter, hsp'⟩ := exists_space_append hc hfirm.ne_nil
        refine ⟨sp ++ sep :: (sp' ++ (c ++ c')), ?_, .inr ?_, ?_, fun y' hy' => ?_⟩
        · conv_lhs => rw [hx, hafter, hc']
          simp
        · exact (((hfirm.append_of hfirm').append _).cons _).append _
        · simp only [length_append, length_cons]
          omega
        · obtain ⟨hopens, hagain⟩ := hmore y' hy'
          have htext : sp ++ sep :: (sp' ++ (c ++ c')) ++ y' = sp ++ sep :: (sp' ++ (c ++ (c' ++ y'))) := by
            simp
          rw [htext, hsp]
          refine ⟨opens_cons mem_cons_self, fun m => ?_⟩
          rw [length_cons, Nat.succ_add, more, hsp, char_self]
          simp only [hsp', htakes _ hopens, hagain m, cons_append]

/-- A list is taken again wherever a separator or one of `ds` follows, and what comes after it is read on. -/
theorem exists_append_of_separated (hpart : SettlesBelow N (sep :: ds) part) {as : List α}
    (hx : x.length < N) (h : separated sep part x = some (as, y)) :
    ∃ c, x = c ++ y ∧ Firm c ∧ ∀ y', Opens (sep :: ds) (skip y') → ∃ m, y'.length ≤ m ∧
      separated sep part (c ++ y') = some (as ++ (more sep part m y').1, (more sep part m y').2) := by
  unfold separated at h
  split at h
  · cases h
  · next a rest hrest =>
    obtain ⟨c, rfl, hfirm, htakes⟩ := hpart _ _ _ hx hrest
    rw [length_append] at hx
    have hpair : more sep part rest.length rest = ((more sep part rest.length rest).1, y) := by
      cases h
      rfl
    obtain ⟨c', hc', hfirm', hcount, hmore⟩ := exists_append_of_more hpart rest.length (by omega) hpair
    cases h
    refine ⟨c ++ c', by rw [append_assoc, ← hc'], hfirm.append_of hfirm', fun y' hy' => ?_⟩
    obtain ⟨hopens, hagain⟩ := hmore y' hy'
    obtain ⟨k, hk⟩ := Nat.exists_eq_add_of_le hcount
    have hfuel : (c' ++ y').length = (more sep part rest.length rest).1.length + (k + y'.length) := by
      rw [length_append, hk, Nat.add_assoc]
    refine ⟨k + y'.length, Nat.le_add_left _ _, ?_⟩
    rw [append_assoc, separated, htakes _ hopens]
    simp only [hfuel, hagain, cons_append]

theorem EndsList.separated {c : List Char} {as : List α} {y' : List Char} (hy' : EndsList sep part ds y')
    (h : ∃ m, y'.length ≤ m ∧
      separated sep part (c ++ y') = some (as ++ (more sep part m y').1, (more sep part m y').2)) :
    Reader.separated sep part (c ++ y') = some (as, y') := by
  obtain ⟨m, -, hagain⟩ := h
  rw [hagain, hy'.rests, append_nil]

theorem SettlesBelow.separated (hpart : SettlesBelow N (sep :: ds) part) (hsep : sep ∉ ds) :
    SettlesBelow N ds (separated sep part) := by
  intro x as y hx h
  obtain ⟨c, hc, hfirm, hagain⟩ := exists_append_of_separated hpart hx h
  have hends (y' : List Char) (hy' : Opens ds (skip y')) : EndsList sep part ds y' := .of_opens hsep hy'
  exact ⟨c, hc, hfirm, fun y' hy' => (hends y' hy').separated (hagain y' (hends y' hy').opens)⟩

/-- A list that may be empty is taken again wherever it may end and no part begins. -/
theorem exists_append_of_listed (hpart : SettlesBelow N (',' :: ds) part) (hx : x.length < N) :
    ∃ c, x = c ++ (listed part x).2 ∧ ∀ y', EndsList ',' part ds y' → part (skip y') = none →
      (listed part (c ++ y')).1 = (listed part x).1 ∧ skip (listed part (c ++ y')).2 = skip y' := by
  have hskip := length_skip_le x
  cases hlist : Reader.separated ',' part (skip x) with
  | none =>
    obtain ⟨sp, hsp, hx⟩ := exists_space x
    have hlisted : listed part x = ([], skip x) := by
      unfold listed
      rw [hlist]
      rfl
    refine ⟨sp, by rw [hlisted]; exact hx, fun y' hy' hnone => ?_⟩
    have hagain : listed part (sp ++ y') = ([], skip y') := by
      unfold listed
      rw [skip_blank hsp, Reader.separated, hnone]
      rfl
    rw [hagain, hlisted]
    exact ⟨rfl, skip_skip y'⟩
  | some p =>
    obtain ⟨as, rest⟩ := p
    obtain ⟨c, hc, hfirm, hagain⟩ := exists_append_of_separated hpart (by omega) hlist
    obtain ⟨sp, hx, hsp⟩ := exists_space_append hc hfirm.ne_nil
    have hlisted : listed part x = (as, rest) := by
      unfold listed
      rw [hlist]
      rfl
    refine ⟨sp ++ c, by rw [hlisted, append_assoc]; exact hx, fun y' hy' _ => ?_⟩
    have hlisted' : listed part (sp ++ c ++ y') = (as, y') := by
      unfold listed
      rw [append_assoc, hsp, hy'.separated (hagain y' hy'.opens)]
      rfl
    rw [hlisted', hlisted]
    exact ⟨rfl, rfl⟩

/-! ## Unions, entries and arguments -/

variable {alt : Reader TypeAlternative} {u : Reader TypeExpr}

theorem SettlesBelow.union (halt : SettlesBelow N ('|' :: ds) alt) (hbar : '|' ∉ ds) :
    SettlesBelow N ds (union alt) := by
  intro x t y hx h
  obtain ⟨⟨as, rest⟩, hlist, heq⟩ := Option.map_eq_some_iff.mp h
  cases heq
  have hskip := length_skip_le x
  obtain ⟨c, hc, hfirm, htakes⟩ := halt.separated hbar _ _ _ (by omega) hlist
  obtain ⟨sp, hx, hsp⟩ := exists_space_append hc hfirm.ne_nil
  refine ⟨sp ++ c, by rw [append_assoc]; exact hx, hfirm.append sp, fun y' hy' => ?_⟩
  rw [Reader.union, append_assoc, hsp, htakes y' hy']
  rfl

theorem SettlesBelow.argument (hu : SettlesBelow N ([',', ')'] ++ variableMarks) u) :
    SettlesBelow N [',', ')'] (argument u) := by
  intro x t y hx h
  obtain ⟨⟨t', rest⟩, ht, heq⟩ := Option.map_eq_some_iff.mp h
  cases heq
  obtain ⟨c, rfl, hfirm, htakes⟩ := hu _ _ _ hx ht
  cases hname : argumentName (skip rest) with
  | none =>
    refine ⟨c, rfl, hfirm, fun y' hy' => ?_⟩
    have hnone : argumentName (skip y') = none := by
      apply argumentName_eq_none
      intro d hd
      exact forall_mem_of_all (p := fun d => d ∉ variableMarks) (by decide) d (hy' d hd)
    rw [Reader.argument, htakes y' (hy'.mono (by decide))]
    simp [hnone]
  | some left =>
    obtain ⟨v, b, last, hv, rfl, hlast, hmark, hagain⟩ := exists_append_of_argumentName hname
    obtain ⟨sp, rfl, hsp⟩ := exists_space_append hv (by simp)
    refine ⟨c ++ (sp ++ (b ++ [last])), by simp, ?_, fun y' hy' => ?_⟩
    · have hfirm' : Firm (b ++ [last]) := ⟨b, last, rfl, .inl hlast⟩
      exact (hfirm'.append sp).append c
    · have hopens : Opens ([',', ')'] ++ variableMarks) (skip (sp ++ (b ++ [last] ++ y'))) := by
        rw [hsp]
        intro d hd
        have hd' : d ∈ (b ++ [last]).head? := by
          cases b <;> exact hd
        exact mem_append_right _ (hmark d hd')
      have hpart : ∀ d ∈ y'.head?, isVariablePart d = false := by
        intro d hd
        rcases isSpace_or_mem_of_opens_skip hy' d hd with hspace | hmem
        · cases hpart : isVariablePart d with
          | false => rfl
          | true =>
            rw [isSpace_of_isWordPart (isWordPart_of_isVariablePart hpart)] at hspace
            cases hspace
        · exact forall_mem_of_all (p := fun d => isVariablePart d = false) (by decide) d hmem
      have htext : c ++ (sp ++ (b ++ [last])) ++ y' = c ++ (sp ++ (b ++ [last] ++ y')) := by simp
      rw [htext, Reader.argument, htakes _ hopens]
      simp only [Option.map_some, hsp, hagain y' hpart, Option.getD_some]

theorem entryLabel_eq_none_of_firm (hfirm : Firm c) (h : entryLabel (c ++ y) = none) {y' : List Char}
    (hy' : Opens [',', '\x7d'] (skip y')) : entryLabel (c ++ y') = none := by
  cases hlabel : entryLabel (c ++ y') with
  | none => rfl
  | some r =>
    obtain ⟨lo, z⟩ := r
    obtain ⟨e, he, hpart, hz, hagain⟩ := exists_append_of_entryLabel hlabel
    rcases append_eq_append_iff.mp he with ⟨e', rfl, hy⟩ | ⟨c', hc, hz'⟩
    · -- The colon would stand in what follows, where a comma or a brace comes first.
      exfalso
      have hmarks : ∀ d ∈ e' ++ [':'], isLabelPart d = true ∨ d = ':' := by
        simp only [mem_append, mem_singleton]
        exact fun d hd => hd.imp_left fun hd => hpart d (mem_append_right _ hd)
      cases hskip : (e' ++ [':']).dropWhile Text.isSpace with
      | nil => exact absurd (dropWhile_eq_nil_iff.mp hskip ':' (by simp)) (by decide)
      | cons d w =>
        have hfirst : skip y' = d :: (w ++ z) := by
          rw [hy, ← singleton_append, ← append_assoc, skip, dropWhile_append, hskip]
          rfl
        have hd := (dropWhile_sublist Text.isSpace).subset (hskip ▸ mem_cons_self)
        exact forall_mem_of_all (p := fun d => ¬ (isLabelPart d = true ∨ d = ':')) (by decide) d
          (hy' d (by rw [hfirst]; rfl)) (hmarks d hd)
    · cases c' with
      | nil =>
        rw [nil_append] at hz'
        rw [← hz', skip_cons (by decide)] at hy'
        have hcolon := hy' ':' rfl
        exact absurd hcolon (by decide)
      | cons d c' =>
        obtain ⟨rfl, rfl⟩ : ':' = d ∧ z = c' ++ y' := by simpa using hz'
        cases c' with
        | nil =>
          obtain ⟨b, d, hb, hd⟩ := hfirm
          rw [hc] at hb
          obtain ⟨-, rfl⟩ := append_singleton_inj.mp hb
          exact absurd hd (by decide)
        | cons d c' =>
          have hsome : entryLabel (e ++ ':' :: (d :: c' ++ y)) = some (lo, d :: c' ++ y) := hagain _ hz
          rw [hc, append_assoc, cons_append, hsome] at h
          cases h

theorem entryLabel_space {sp : List Char} (hsp : ∀ d ∈ sp, Text.isSpace d = true) (hne : sp ≠ []) :
    entryLabel (sp ++ z) = none := by
  cases sp with
  | nil => exact absurd rfl hne
  | cons d sp =>
    have hpart : isWordPart d = false := isSpace_of_isWordPart_false (hsp d mem_cons_self)
    cases hlabel : label (d :: (sp ++ z)) with
    | none => rw [entryLabel_eq, cons_append, hlabel, Option.bind_none]
    | some r =>
      obtain ⟨c, hc, hne, hparts, -⟩ := exists_append_of_label hlabel
      cases c with
      | nil => exact absurd rfl hne
      | cons e c =>
        obtain ⟨rfl, -⟩ := cons_eq_cons.mp hc
        rw [hparts d mem_cons_self] at hpart
        cases hpart

theorem SettlesBelow.entry (hu : SettlesBelow N [',', '\x7d'] u) : SettlesBelow N [',', '\x7d'] (entry u) := by
  intro x e y hx h
  unfold Reader.entry at h
  split at h
  · next l optional rest hlabel =>
    obtain ⟨⟨t, left⟩, ht, heq⟩ := Option.map_eq_some_iff.mp h
    cases heq
    obtain ⟨c, rfl, -, hcolon, hagain⟩ := exists_append_of_entryLabel hlabel
    have hskip := length_skip_le rest
    rw [length_append, length_cons] at hx
    obtain ⟨c', hc', hfirm, htakes⟩ := hu _ _ _ (by omega) ht
    obtain ⟨sp, rfl, hsp⟩ := exists_space_append hc' hfirm.ne_nil
    refine ⟨c ++ ':' :: (sp ++ c'), by simp, ((hfirm.append sp).cons _).append c, fun y' hy' => ?_⟩
    have htext : c ++ ':' :: (sp ++ c') ++ y' = c ++ ':' :: (sp ++ (c' ++ y')) := by simp
    have hcolon' : ':' ∉ (sp ++ (c' ++ y')).head? := by
      cases sp with
      | nil =>
        cases c' with
        | nil => exact absurd rfl hfirm.ne_nil
        | cons d c' => exact hcolon
      | cons d sp => exact hcolon
    rw [htext, Reader.entry, hagain _ hcolon']
    simp only [hsp, htakes y' hy', Option.map_some]
  · next hlabel =>
    obtain ⟨⟨t, left⟩, ht, heq⟩ := Option.map_eq_some_iff.mp h
    cases heq
    have hskip := length_skip_le x
    obtain ⟨c, hc, hfirm, htakes⟩ := hu _ _ _ (by omega) ht
    obtain ⟨sp, hspaces, hx'⟩ := exists_space x
    rw [hc] at hx'
    refine ⟨sp ++ c, by rw [append_assoc]; exact hx', hfirm.append sp, fun y' hy' => ?_⟩
    have hnone : entryLabel (sp ++ c ++ y') = none := by
      cases sp with
      | nil =>
        rw [hx', nil_append] at hlabel
        exact entryLabel_eq_none_of_firm hfirm hlabel hy'
      | cons d sp =>
        rw [append_assoc]
        exact entryLabel_space hspaces (by simp)
    have hskip' : skip (sp ++ c ++ y') = c ++ y' := by
      cases c with
      | nil => exact absurd rfl hfirm.ne_nil
      | cons d c =>
        have hd : Text.isSpace d = false := isSpace_head_skip (x := x) (by rw [hc]; rfl)
        rw [append_assoc]
        exact skip_space_append hspaces hd
    rw [Reader.entry, hnone]
    simp only [hskip', htakes y' hy', Option.map_some]

/-! ## Results -/

def Bracketless (y : List Char) : Prop := ∀ z, skip y ≠ '[' :: ']' :: z

/-- What the reader takes from `x` to `y` it takes in front of every mark that may follow a head, and
unless it takes brackets itself, in front of them too. -/
def EndsHead (r : Reader α) (a : α) (x y : List Char) : Prop :=
  ∃ c, x = c ++ y ∧ Firm c ∧ Takes alternativeEnds c r a ∧ (Bracketless y ∨ Takes headEnds c r a)

theorem EndsHead.of_takes (hc : x = c ++ y) (hfirm : Firm c) (h : Takes headEnds c r a) : EndsHead r a x y :=
  ⟨c, hc, hfirm, h.mono (by decide), .inr h⟩

theorem exists_append_of_brackets (n : Nat) {k : Nat} (h : brackets n x = (k, y)) :
    ∃ c, x = c ++ y ∧ (c = [] ∨ Firm c ∧ ¬ Bracketless x) ∧ k ≤ c.length ∧
      ∀ y', Opens alternativeEnds (skip y') →
        (c ≠ [] → Opens headEnds (skip (c ++ y'))) ∧ ∀ m, k ≤ m → brackets m (c ++ y') = (k, y') := by
  induction n generalizing x k with
  | zero =>
    cases h
    exact ⟨[], rfl, .inl rfl, Nat.le_refl _, fun y' hy' =>
      ⟨fun hne => absurd rfl hne, fun m _ => brackets_of_opens m hy'⟩⟩
  | succ n ih =>
    rw [brackets] at h
    split at h
    · next rest heq =>
      have hpair : brackets n rest = ((brackets n rest).1, y) := by
        cases h
        rfl
      obtain ⟨c, hc, hfirm, hcount, hagain⟩ := ih hpair
      cases h
      obtain ⟨sp, hx, hsp, -⟩ := exists_space_cons heq
      refine ⟨sp ++ '[' :: ']' :: c, ?_, .inr ⟨?_, fun hbare => hbare rest heq⟩, ?_, fun y' hy' => ?_⟩
      · conv_lhs => rw [hx, hc]
        simp
      · have hclosed : Firm ['[', ']'] := firm_concat ['['] (by decide)
        exact (hclosed.append_of (hfirm.imp_right And.left)).append sp
      · simp only [length_append, length_cons]
        omega
      · obtain ⟨-, hmore⟩ := hagain y' hy'
        have htext : sp ++ '[' :: ']' :: c ++ y' = sp ++ '[' :: (']' :: (c ++ y')) := by simp
        rw [htext, hsp]
        refine ⟨fun _ => opens_cons (by decide), fun m hm => ?_⟩
        cases m with
        | zero => omega
        | succ m =>
          rw [brackets, hsp]
          simp only [hmore m (by omega)]
    · cases h
      exact ⟨[], rfl, .inl rfl, Nat.le_refl _,
        fun y' hy' => ⟨fun hne => absurd rfl hne, fun m _ => brackets_of_opens m hy'⟩⟩

theorem bracketless_brackets (n : Nat) (hn : x.length ≤ n) : Bracketless (brackets n x).2 := by
  induction n generalizing x with
  | zero =>
    obtain rfl : x = [] := length_eq_zero_iff.mp (Nat.le_zero.mp hn)
    intro z hz
    cases hz
  | succ n ih =>
    rw [brackets]
    split
    · next rest heq =>
      have hskip := length_skip_le x
      rw [heq, length_cons, length_cons] at hskip
      exact ih (by omega)
    · next hbare =>
      intro z hz
      exact hbare z hz

theorem bracketless_of_alternativeStep {b : TypeAlternative} (h : alternativeStep alt x = some (b, y)) :
    Bracketless y := by
  obtain ⟨⟨hd, rest⟩, -, heq⟩ := Option.map_eq_some_iff.mp h
  cases heq
  exact bracketless_brackets _ (Nat.le_refl _)

theorem exists_of_tuple (h : tuple u x = some (hd, y)) :
    ∃ z items rest, x = '(' :: z ∧ separated ',' u (skip z) = some (items, rest) ∧ skip rest = ')' :: y ∧
      hd = .tuple items := by
  unfold tuple at h
  split at h
  · next z =>
    split at h
    · next items rest hitems =>
      obtain ⟨hclose, heq⟩ := skip_of_closing h
      exact ⟨z, items, rest, rfl, hitems, hclose, heq.symm⟩
    · cases h
  · cases h

theorem head_paren (alt : Reader TypeAlternative) (z : List Char) :
    head alt ('(' :: z) = tuple (union alt) ('(' :: z) := by
  have hname : name ('(' :: z) = none := by
    rw [name_cons (by decide), word_eq_none (by decide), Option.map_none]
  have hconstant : constant ('(' :: z) = none := by rw [constant, hname]
  have hgeneric : generic (Reader.union alt) ('(' :: z) = none := by rw [generic, hname]
  have hshape : shape (Reader.union alt) ('(' :: z) = none := rfl
  have hcallable : callable alt ('(' :: z) = none := rfl
  rw [head, hconstant, hgeneric, hname, hshape, hcallable]
  cases tuple (Reader.union alt) ('(' :: z) <;> rfl

theorem tuple_of_alternativeStep {b : TypeAlternative} {z : List Char}
    (h : alternativeStep alt ('(' :: z) = some (b, y)) :
    ∃ items rest, b.head = .tuple items ∧ tuple (union alt) ('(' :: z) = some (.tuple items, rest) := by
  obtain ⟨⟨hd, rest⟩, hread, heq⟩ := Option.map_eq_some_iff.mp h
  cases heq
  have htuple : tuple (Reader.union alt) ('(' :: z) = some (hd, rest) := by
    rw [← head_paren]
    exact hread
  obtain ⟨-, items, -, -, -, -, rfl⟩ := exists_of_tuple htuple
  exact ⟨items, rest, rfl, htuple⟩

/-- Either no further part is taken, or a separator stands in front. -/
theorem more_cases (sep : Char) (part : Reader α) (n : Nat) (x : List Char) :
    more sep part n x = ([], x) ∨ (more sep part n x).1 ≠ [] ∧ ∃ z, skip x = sep :: z := by
  cases n with
  | zero => exact .inl rfl
  | succ n =>
    rw [more]
    split
    · exact .inl rfl
    · next after hchar =>
      split
      · exact .inl rfl
      · exact .inr ⟨by simp, after, eq_cons_of_char hchar⟩

/-- What stands in parentheses is a union rather than a tuple just if it has one member. -/
theorem parenthesized_eq_none_iff {items : List TypeExpr} (h : tuple (union alt) x = some (.tuple items, y)) :
    parenthesized alt x = none ↔ items.length ≠ 1 := by
  obtain ⟨z, items', rest, rfl, hitems, hclose, heq⟩ := exists_of_tuple h
  cases heq
  rw [parenthesized_cons]
  unfold Reader.separated at hitems
  split at hitems
  · cases hitems
  · next t left hfirst =>
    rw [hfirst, Option.bind_some]
    rcases more_cases ',' (Reader.union alt) left.length left with hmore | ⟨hne, w, hcomma⟩
    · rw [hmore] at hitems
      cases hitems
      simp [closing_of_skip t hclose]
    · cases hitems
      have hfails : closing ')' t left = none := by
        rw [closing, hcomma]
        rfl
      simpa [hfails] using hne

/-- What stands in brackets is read again whatever follows the closing one. -/
theorem exists_append_of_enclosed {p : Reader α} {a : α} {rest : List Char} (hp : SettlesBelow N [')'] p)
    (hz : z.length < N) (h : p (skip z) = some (a, rest)) (hclose : skip rest = ')' :: y) :
    ∃ c, '(' :: z = c ++ y ∧ Firm c ∧ ∀ y', ∃ z' rest',
      c ++ y' = '(' :: z' ∧ p (skip z') = some (a, rest') ∧ skip rest' = ')' :: y' := by
  have hskip := length_skip_le z
  obtain ⟨c, hc, hfirm, htakes⟩ := hp _ _ _ (by omega) h
  obtain ⟨sp, rfl, hsp⟩ := exists_space_append hc hfirm.ne_nil
  obtain ⟨sp', rfl, hsp', -⟩ := exists_space_cons hclose
  refine ⟨'(' :: (sp ++ (c ++ sp') ++ [')']), by simp, (firm_concat _ (by decide)).cons _, fun y' =>
    ⟨sp ++ (c ++ (sp' ++ ')' :: y')), sp' ++ ')' :: y', by simp, ?_, hsp' y'⟩⟩
  rw [hsp, htakes]
  rw [hsp']
  exact opens_cons mem_cons_self

theorem exists_append_of_parenthesized (halt : SettlesBelow N alternativeEnds alt) {t : TypeExpr}
    (hx : x.length < N + 1) (h : parenthesized alt x = some (t, y)) :
    ∃ c, x = c ++ y ∧ Firm c ∧ ∀ y', parenthesized alt (c ++ y') = some (t, y') := by
  unfold parenthesized at h
  split at h
  · split at h
    · next hunion =>
      obtain ⟨hclose, rfl⟩ := skip_of_closing h
      obtain ⟨c, hc, hfirm, hagain⟩ := exists_append_of_enclosed ((halt.mono (by decide)).union (by decide))
        (Nat.lt_of_succ_lt_succ hx) hunion hclose
      refine ⟨c, hc, hfirm, fun y' => ?_⟩
      obtain ⟨z', rest', htext, hread, hclose'⟩ := hagain y'
      rw [htext, parenthesized, hread]
      exact closing_of_skip _ hclose'
    · cases h
  · cases h

theorem endsHead_result (halt : SettlesBelow N alternativeEnds anyAlternative) {t : TypeExpr}
    (hx : x.length < N) (h : result anyAlternative x = some (t, y)) :
    EndsHead (result anyAlternative) t x y := by
  rw [result_eq, Option.or_eq_some_iff] at h
  rcases h with h | ⟨hnone, h⟩
  · obtain ⟨c, hc, hfirm, hagain⟩ := exists_append_of_parenthesized halt (Nat.lt_succ_of_lt hx) h
    refine .of_takes hc hfirm fun y' _ => ?_
    rw [result_eq, hagain y']
    rfl
  · obtain ⟨⟨b, rest⟩, hread, heq⟩ := Option.map_eq_some_iff.mp h
    cases heq
    obtain ⟨c, rfl, hfirm, htakes⟩ := halt _ _ _ hx hread
    refine ⟨c, rfl, hfirm, fun y' hy' => ?_, .inl ?_⟩
    · have hnone' : parenthesized anyAlternative (c ++ y') = none := by
        cases c with
        | nil => exact absurd rfl hfirm.ne_nil
        | cons d c =>
          by_cases hd : d = '('
          · subst hd
            have hagain := htakes y' hy'
            rw [anyAlternative_eq] at hread hagain
            obtain ⟨items, left, hitems, htuple⟩ := tuple_of_alternativeStep hread
            obtain ⟨items', left', hitems', htuple'⟩ := tuple_of_alternativeStep hagain
            cases hitems.symm.trans hitems'
            exact (parenthesized_eq_none_iff htuple').mpr ((parenthesized_eq_none_iff htuple).mp hnone)
          · unfold parenthesized
            split
            · next heq =>
              cases heq
              exact absurd rfl hd
            · rfl
      rw [result_eq, hnone', htakes y' hy']
      rfl
    · rw [anyAlternative_eq] at hread
      exact bracketless_of_alternativeStep hread

/-! ## Heads -/

theorem endsHead_constant (h : constant x = some (hd, y)) : EndsHead (head alt) hd x y := by
  unfold constant at h
  split at h
  · cases h
  · next owner rest hname =>
    split at h
    · next left hcolons =>
      obtain ⟨⟨w, rest'⟩, hword, heq⟩ := Option.map_eq_some_iff.mp h
      cases heq
      have hisName := isName_of_name hname
      have hisWord := isWord_of_word hword
      have hfirm := firm_of_isWord hisWord
      obtain ⟨sp, hrest, hsp, -⟩ := exists_space_cons hcolons
      obtain ⟨sp', hleft, hsp'⟩ := exists_space_append (append_of_word hword) hfirm.ne_nil
      refine .of_takes ?_ ?_ (takes_constant hisName hisWord hsp hsp')
      · rw [append_of_name hname, hrest, hleft]
        simp
      · exact ((((hfirm.append sp').cons _).cons _).append sp).append _
    · cases h

theorem endsHead_name {n : String} (h : name x = some (n, y)) : EndsHead (head alt) (.name n) x y :=
  .of_takes (append_of_name h) (firm_of_isName (isName_of_name h)) (takes_name (isName_of_name h))

theorem endsHead_generic (halt : SettlesBelow N alternativeEnds alt) (hx : x.length < N + 1)
    (h : generic (union alt) x = some (hd, y)) : EndsHead (head alt) hd x y := by
  have hunion : SettlesBelow N [',', '>'] (Reader.union alt) := (halt.mono (by decide)).union (by decide)
  have hlist : SettlesBelow N ['>'] (Reader.separated ',' (Reader.union alt)) := hunion.separated (by decide)
  unfold generic at h
  split at h
  · cases h
  · next n rest hname =>
    have hisName := isName_of_name hname
    have hshorter := shrinks_name _ _ _ hname
    have hx' := append_of_name hname
    split at h
    · cases h
    · next left hchar =>
      have hlen := length_of_char_skip hchar
      obtain ⟨sp, hrest, hsp, -⟩ := exists_space_cons (eq_cons_of_char hchar)
      split at h
      · next after hstar =>
        obtain ⟨hclose, rfl⟩ := skip_of_closing h
        obtain ⟨sp', hleft, hsp', -⟩ := exists_space_cons hstar
        obtain ⟨sp'', hafter, hsp'', -⟩ := exists_space_cons hclose
        refine .of_takes (c := n.toList ++ (sp ++ '<' :: (sp' ++ '*' :: (sp'' ++ ['>'])))) ?_ ?_ fun y' _ => ?_
        · rw [hx', hrest, hleft, hafter]
          simp
        · exact (((((firm_concat sp'' (by decide)).cons _).append sp').cons _).append sp).append _
        · have htext : n.toList ++ (sp ++ '<' :: (sp' ++ '*' :: (sp'' ++ ['>']))) ++ y' =
              n.toList ++ (sp ++ '<' :: (sp' ++ '*' :: (sp'' ++ '>' :: y'))) := by simp
          have hhalts : Halts (sp ++ '<' :: (sp' ++ '*' :: (sp'' ++ '>' :: y'))) :=
            halts_space_cons hsp (by decide)
          rw [htext]
          apply head_of_generic hisName hhalts (hsp _)
          rw [generic, name_append_of_halts hisName hhalts]
          simp only [hsp, char_self, hsp']
          exact closing_of_skip _ (hsp'' y')
      · next hstar =>
        split at h
        · next args after hargs =>
          obtain ⟨hclose, rfl⟩ := skip_of_closing h
          have hskip := length_skip_le left
          obtain ⟨c, hc, hfirm, htakes⟩ := hlist _ _ _ (by omega) hargs
          obtain ⟨sp', hleft, hsp'⟩ := exists_space_append hc hfirm.ne_nil
          obtain ⟨sp'', hafter, hsp'', -⟩ := exists_space_cons hclose
          refine .of_takes ?_ ?_ (takes_generic hisName hsp hsp' hsp'' hfirm.ne_nil ?_ htakes)
          · rw [hx', hrest, hleft, hafter]
            simp
          · exact (((((firm_concat sp'' (by decide)).append c).append sp').cons _).append sp).append _
          · intro hmem
            obtain ⟨c', rfl⟩ := eq_cons_of_mem_head hmem
            exact hstar _ hc
        · cases h

theorem exists_append_of_tuple (halt : SettlesBelow N alternativeEnds alt) (hx : x.length < N + 1)
    (h : tuple (union alt) x = some (hd, y)) :
    ∃ c, x = c ++ y ∧ Firm c ∧ ∀ y', head alt (c ++ y') = some (hd, y') := by
  have hunion : SettlesBelow N [',', ')'] (Reader.union alt) := (halt.mono (by decide)).union (by decide)
  obtain ⟨z, items, rest, rfl, hitems, hclose, rfl⟩ := exists_of_tuple h
  obtain ⟨c, hc, hfirm, hagain⟩ := exists_append_of_enclosed (hunion.separated (by decide))
    (Nat.lt_of_succ_lt_succ hx) hitems hclose
  refine ⟨c, hc, hfirm, fun y' => ?_⟩
  obtain ⟨z', rest', htext, hread, hclose'⟩ := hagain y'
  rw [htext, head_paren, tuple, hread]
  exact closing_of_skip _ hclose'

theorem keyword_append (h : c.map Char.toLower = ws) (y : List Char) :
    keyword ws (c ++ y) = some ((), y) := by
  induction c generalizing ws with
  | nil =>
    cases h
    rfl
  | cons d c ih =>
    cases h
    rw [map_cons, cons_append, keyword, if_pos rfl]
    exact ih rfl

theorem isWord_of_map_toLower {w : Char} (hws : ∀ v ∈ w :: ws, isWordStart v = true)
    (h : c.map Char.toLower = w :: ws) : isWord c = true := by
  have hstart : ∀ d ∈ c, isWordStart d = true := by
    intro d hd
    exact isWordStart_of_toLower (hws _ (h ▸ mem_map_of_mem hd)) rfl
  cases c with
  | nil => cases h
  | cons d c =>
    rw [isWord, hstart d mem_cons_self, Bool.true_and, all_eq_true]
    exact fun e he => isWordPart_of_isWordStart (hstart e (mem_cons_of_mem d he))

/-- A keyword is a name, which begins a head of its own form where the right mark follows. -/
theorem exists_of_keyword_char {w : Char} {rest : List Char} {a b : Unit}
    (hws : ∀ v ∈ w :: ws, isWordStart v = true) (hkey : keyword (w :: ws) x = some (a, rest))
    (hchar : char m (skip rest) = some (b, z)) :
    ∃ n sp, x = n ++ (sp ++ m :: z) ∧ IsName n ∧ z.length < x.length ∧
      (∀ z', skip (sp ++ m :: z') = m :: z') ∧ ∀ z', keyword (w :: ws) (n ++ z') = some ((), z') := by
  have hlen := length_of_keyword hkey
  have hlen' := length_of_char_skip hchar
  obtain ⟨n, rfl, hn⟩ := exists_append_of_keyword hkey
  obtain ⟨sp, rfl, hsp, -⟩ := exists_space_cons (eq_cons_of_char hchar)
  exact ⟨n, sp, rfl, isName_of_isWord (isWord_of_map_toLower hws hn), by omega, hsp, keyword_append hn⟩

/-- A comma after the last entry and the brace after it. -/
theorem exists_append_of_lastComma (hpart : ∀ d ∈ ['\x7d', ','], ∀ z, part (d :: z) = none)
    (h : skip (lastComma x) = '\x7d' :: y) :
    ∃ c, x = c ++ '\x7d' :: y ∧ ∀ y', EndsList ',' part ['\x7d'] (c ++ '\x7d' :: y') ∧
      part (skip (c ++ '\x7d' :: y')) = none ∧
      ∀ w, skip w = skip (c ++ '\x7d' :: y') → skip (lastComma w) = '\x7d' :: y' := by
  unfold lastComma at h
  split at h
  · next rest hcomma =>
    obtain ⟨sp, rfl, hsp, -⟩ := exists_space_cons hcomma
    obtain ⟨sp', rfl, hsp', -⟩ := exists_space_cons h
    refine ⟨sp ++ ',' :: sp', by simp, fun y' => ?_⟩
    have htext : sp ++ ',' :: sp' ++ '\x7d' :: y' = sp ++ ',' :: (sp' ++ '\x7d' :: y') := by simp
    rw [htext, hsp]
    refine ⟨⟨?_, fun m => more_eq_nil m ?_⟩, hpart _ (by decide) _, fun w hw => ?_⟩
    · rw [hsp]
      exact opens_cons mem_cons_self
    · intro z hz
      rw [hsp] at hz
      cases hz
      rw [hsp']
      exact hpart _ (by decide) _
    · rw [lastComma, hw]
      exact hsp' y'
  · rw [skip_skip] at h
    obtain ⟨sp, rfl, hsp, -⟩ := exists_space_cons h
    refine ⟨sp, rfl, fun y' => ?_⟩
    rw [hsp]
    refine ⟨.of_opens (by decide) ?_, hpart _ (by decide) _, fun w hw => ?_⟩
    · rw [hsp]
      exact opens_cons mem_cons_self
    · rw [lastComma, hw]
      exact skip_cons (by decide)

section Heads

variable (halt : SettlesBelow N alternativeEnds anyAlternative)

include halt

theorem endsHead_shape (hx : x.length < N + 1)
    (h : shape (union anyAlternative) x = some (hd, y)) : EndsHead (head anyAlternative) hd x y := by
  have hsettles : SettlesBelow N [',', '\x7d'] (Reader.union anyAlternative) :=
    (halt.mono (by decide)).union (by decide)
  rw [shape_eq] at h
  obtain ⟨⟨_, rest⟩, hkey, hread⟩ := Option.bind_eq_some_iff.mp h
  obtain ⟨⟨_, z⟩, hchar, hlast⟩ := Option.bind_eq_some_iff.mp hread
  obtain ⟨hclose, rfl⟩ := skip_of_closing hlast
  obtain ⟨n, sp, rfl, hn, hlen, hsp, hkey'⟩ :=
    exists_of_keyword_char (forall_mem_of_all (by decide)) hkey hchar
  obtain ⟨c, hc, hlist⟩ := exists_append_of_listed hsettles.entry (x := z) (by omega)
  obtain ⟨c', hc', hcommas⟩ := exists_append_of_lastComma entry_eq_none hclose
  refine .of_takes (c := n ++ (sp ++ '\x7b' :: (c ++ c' ++ ['\x7d']))) ?_ ?_ fun y' _ => ?_
  · conv_lhs => rw [hc, hc']
    simp
  · exact (((firm_concat (c ++ c') (by decide)).cons _).append sp).append n
  · obtain ⟨hends, hnone, hcomma⟩ := hcommas y'
    obtain ⟨hentries, hrest⟩ := hlist _ hends hnone
    simp only [append_assoc, cons_append, nil_append]
    rw [← hentries]
    exact head_of_shape hn hkey' hsp (hcomma _ hrest)

/-- The result of a callable, if it has one, is taken as a result is. -/
theorem exists_append_of_afterArguments {args : List TypeExpr} (hx : x.length < N)
    (h : afterArguments anyAlternative args x = some (hd, y)) :
    ∃ c, x = c ++ y ∧ (c = [] ∨ Firm c) ∧ Takes alternativeEnds c (afterArguments anyAlternative args) hd ∧
      (Bracketless y ∨ Takes headEnds c (afterArguments anyAlternative args) hd) := by
  have hbare : Takes headEnds [] (afterArguments anyAlternative args) _ := takes_afterArguments args
  unfold afterArguments at h
  split at h
  · next left hcolon =>
    split at h
    · next t rest hresult =>
      cases h
      have hskip := length_skip_le left
      have hlen := length_skip_le x
      rw [hcolon, length_cons] at hlen
      obtain ⟨c, hc, hfirm, htakes, hbrackets⟩ := endsHead_result halt (by omega) hresult
      obtain ⟨sp, hx', hsp, -⟩ := exists_space_cons hcolon
      obtain ⟨sp', hleft, hsp'⟩ := exists_space_append hc hfirm.ne_nil
      refine ⟨sp ++ ':' :: (sp' ++ c), ?_, .inr (((hfirm.append sp').cons _).append sp),
        htakes.afterArguments args hsp hsp', hbrackets.imp_right fun h => h.afterArguments args hsp hsp'⟩
      rw [hx', hleft]
      simp
    · cases h
      exact ⟨[], rfl, .inl rfl, hbare.mono (by decide), .inr hbare⟩
  · cases h
    exact ⟨[], rfl, .inl rfl, hbare.mono (by decide), .inr hbare⟩

theorem endsHead_callable (hx : x.length < N + 1)
    (h : callable anyAlternative x = some (hd, y)) : EndsHead (head anyAlternative) hd x y := by
  have hunion : SettlesBelow N ([',', ')'] ++ variableMarks) (Reader.union anyAlternative) :=
    (halt.mono (by decide)).union (by decide)
  rw [callable_eq] at h
  obtain ⟨⟨_, rest⟩, hkey, hread⟩ := Option.bind_eq_some_iff.mp h
  obtain ⟨⟨_, z⟩, hchar, hlast⟩ := Option.bind_eq_some_iff.mp hread
  obtain ⟨⟨_, s⟩, hclose, hafter⟩ := Option.bind_eq_some_iff.mp hlast
  obtain ⟨n, sp, rfl, hn, hlen, hsp, hkey'⟩ :=
    exists_of_keyword_char (forall_mem_of_all (by decide)) hkey hchar
  obtain ⟨-, hle⟩ := (shrinks_anyAlternative.alike _).union.argument.listed (Nat.lt_succ_self z.length)
  have hlen' : s.length < (listed (Reader.argument (Reader.union anyAlternative)) z).2.length :=
    length_of_char_skip hclose
  obtain ⟨c, hc, hlist⟩ := exists_append_of_listed hunion.argument (x := z) (by omega)
  obtain ⟨sp', hs, hsp', -⟩ := exists_space_cons (eq_cons_of_char hclose)
  have hshort : s.length < N := by omega
  obtain ⟨c', rfl, hfirm, htakes, hbrackets⟩ := exists_append_of_afterArguments halt hshort hafter
  have hcallable {ds : List Char}
      (h : Takes ds c' (afterArguments anyAlternative (listed (Reader.argument (Reader.union anyAlternative)) z).1) hd) :
      Takes ds (n ++ (sp ++ '(' :: (c ++ (sp' ++ ')' :: c')))) (head anyAlternative) hd := by
    intro y' hy'
    have hends : EndsList ',' (Reader.argument (Reader.union anyAlternative)) [')'] (sp' ++ ')' :: (c' ++ y')) := by
      apply EndsList.of_opens (by decide)
      rw [hsp']
      exact opens_cons mem_cons_self
    have hnone : Reader.argument (Reader.union anyAlternative) (skip (sp' ++ ')' :: (c' ++ y'))) = none := by
      rw [hsp', Reader.argument, union_anyAlternative_eq_none (by decide), Option.map_none]
    obtain ⟨hargs, hrest⟩ := hlist _ hends hnone
    simp only [append_assoc, cons_append]
    refine head_of_callable hn hkey' hsp (hrest.trans (hsp' _)) ?_
    rw [hargs]
    exact h y' hy'
  refine ⟨n ++ (sp ++ '(' :: (c ++ (sp' ++ ')' :: c'))), ?_, ?_, hcallable htakes, hbrackets.imp_right hcallable⟩
  · conv_lhs => rw [hc, hs]
    simp
  · have hparen : Firm [')'] := firm_concat [] (by decide)
    exact (((((hparen.append_of hfirm).append sp').append c).cons _).append sp).append n

theorem endsHead_head (hx : x.length < N + 1)
    (h : head anyAlternative x = some (hd, y)) : EndsHead (head anyAlternative) hd x y := by
  unfold head at h
  simp only [Option.orElse_eq_orElse, Option.orElse_eq_or, Option.or_eq_some_iff] at h
  rcases h with h | ⟨-, h | ⟨-, h | ⟨-, h | ⟨-, h | ⟨-, h⟩⟩⟩⟩⟩
  · exact endsHead_constant h
  · exact endsHead_shape halt hx h
  · exact endsHead_callable halt hx h
  · obtain ⟨c, hc, hfirm, hagain⟩ := exists_append_of_tuple halt hx h
    exact .of_takes hc hfirm fun y' _ => hagain y'
  · exact endsHead_generic halt hx h
  · obtain ⟨⟨n, rest⟩, hname, heq⟩ := Option.map_eq_some_iff.mp h
    cases heq
    exact endsHead_name hname

end Heads

/-! ## Alternatives -/

/-- A question mark in front leaves the head as it is. -/
theorem exists_append_of_nullMark (h : (nullMark x).2 = c ++ y) (hne : c ≠ []) :
    ∃ b, x = b ++ (c ++ y) ∧ ∀ y', nullMark (b ++ (c ++ y')) = ((nullMark x).1, c ++ y') := by
  unfold nullMark at h
  split at h
  · next rest =>
    obtain ⟨sp, rfl, hsp⟩ := exists_space_append h hne
    exact ⟨'?' :: sp, rfl, fun y' => by simp [nullMark, hsp]⟩
  · next hmark =>
    refine ⟨[], h, fun y' => ?_⟩
    cases c with
    | nil => exact absurd rfl hne
    | cons d c =>
      have hd : d ≠ '?' := by
        rintro rfl
        exact hmark (c ++ y) h
      have hx : x = d :: (c ++ y) := h
      rw [hx, nil_append, cons_append, nullMark_cons hd, nullMark_cons hd]

theorem SettlesBelow.step (halt : SettlesBelow N alternativeEnds anyAlternative) :
    SettlesBelow (N + 1) alternativeEnds anyAlternative := by
  intro x b y hx h
  rw [anyAlternative_eq, alternativeStep_eq] at h
  obtain ⟨⟨hd, rest⟩, hhead, heq⟩ := Option.map_eq_some_iff.mp h
  cases heq
  have hle := length_nullMark_le x
  obtain ⟨c, hc, hfirm, htakes, hbrackets⟩ := endsHead_head halt (by omega) hhead
  obtain ⟨c', hrest, hfirm', hcount, hagain⟩ := exists_append_of_brackets rest.length (x := rest) rfl
  obtain ⟨e, rfl, hmark⟩ := exists_append_of_nullMark hc hfirm.ne_nil
  refine ⟨e ++ (c ++ c'), ?_, ?_, fun y' hy' => ?_⟩
  · conv_lhs => rw [hrest]
    simp
  · exact (hfirm.append_of (hfirm'.imp_right And.left)).append e
  · obtain ⟨hopens, hmore⟩ := hagain y' hy'
    have htext : e ++ (c ++ c') ++ y' = e ++ (c ++ (c' ++ y')) := by simp
    have hhead' : head anyAlternative (c ++ (c' ++ y')) = some (hd, c' ++ y') := by
      rcases hfirm' with rfl | ⟨hfirm', hsome⟩
      · exact htakes _ hy'
      · exact (hbrackets.resolve_left hsome) _ (hopens hfirm'.ne_nil)
    have hle' : (brackets rest.length rest).1 ≤ (c' ++ y').length := by
      rw [length_append]
      omega
    rw [htext, anyAlternative_eq, alternativeStep_eq, hmark (c' ++ y')]
    simp only [hhead', Option.map_some, hmore _ hle']

theorem settlesBelow_anyAlternative (N : Nat) : SettlesBelow N alternativeEnds anyAlternative := by
  induction N with
  | zero =>
    intro x b y hx
    exact absurd hx (Nat.not_lt_zero _)
  | succ N ih => exact ih.step

theorem settlesBelow_union (N : Nat) : SettlesBelow N unionEnds (union anyAlternative) :=
  ((settlesBelow_anyAlternative N).mono (by decide)).union (by decide)

end Reader

open Reader

/-- What was read as a type at the front of a text is read as the same type when it stands alone. -/
theorem TypeExpr.exists_append_of_read? {x y : List Char} {t : TypeExpr} (h : TypeExpr.read? x = some (t, y)) :
    ∃ c, x = c ++ y ∧ Firm c ∧ TypeExpr.read? c = some (t, []) := by
  rw [read?_eq] at h
  obtain ⟨c, hc, hfirm, htakes⟩ := settlesBelow_union (x.length + 1) _ _ _ (Nat.lt_succ_self _) h
  refine ⟨c, hc, hfirm, ?_⟩
  have hempty : Opens unionEnds (skip []) := fun d hd => by cases hd
  rw [read?_eq]
  simpa using htakes [] hempty

end PhpFlow
