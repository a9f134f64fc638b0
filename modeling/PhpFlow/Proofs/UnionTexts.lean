import Mathlib.Data.List.DropRight
import PhpFlow.Proofs.DocTypes
import PhpFlow.Proofs.Flattening
import PhpFlow.Proofs.ReadBack

/-!
# Texts joined to a union

Two texts that are read as types make a union when they are joined by a bar. What is read of the first text
is read again in front of the bar, and the second text goes on with the alternatives of the first. Only
blanks that are no space can stand after a type but not before a bar.
-/
namespace PhpFlow

open List Option

namespace Reader

variable {α : Type} {part : Reader α} {sep : Char} {x y : List Char}

theorem more_eq_of_length_le (hpart : Shrinks part) {m n : Nat} (hm : x.length ≤ m) (hn : x.length ≤ n) :
    more sep part m x = more sep part n x := by
  have hnil (k : Nat) : more sep part k [] = ([], []) := by cases k <;> rfl
  induction m generalizing n x with
  | zero =>
    obtain rfl := length_eq_zero_iff.mp (Nat.le_zero.mp hm)
    rw [hnil, hnil]
  | succ m ih =>
    cases n with
    | zero =>
      obtain rfl := length_eq_zero_iff.mp (Nat.le_zero.mp hn)
      rw [hnil, hnil]
    | succ n =>
      rw [more, more]
      split
      · rfl
      · next after hchar =>
        have hafter := length_of_char_skip hchar
        have hskip := length_skip_le after
        split
        · rfl
        · next a rest hrest =>
          have hlt := hpart _ _ _ hrest
          rw [ih (n := n) (by omega) (by omega)]

/-- After a separator a list goes on like one that begins there. -/
theorem more_of_separated (hpart : Shrinks part) {z : List Char} {as : List α} {m : Nat}
    (hx : skip x = sep :: z) (hm : x.length ≤ m) (h : separated sep part (skip z) = some (as, y)) :
    more sep part m x = (as, y) := by
  have hlen := length_skip_le x
  rw [hx, length_cons] at hlen
  have hskip := length_skip_le z
  cases m with
  | zero => omega
  | succ m =>
    unfold separated at h
    split at h
    · cases h
    · next a rest hrest =>
      have hlt := hpart _ _ _ hrest
      have hfuel : more sep part m rest = more sep part rest.length rest :=
        more_eq_of_length_le hpart (by omega) (Nat.le_refl _)
      cases h
      rw [more, hx, char_self]
      simp only [hrest, hfuel]

end Reader

open Reader

/-- What is read at the front of a text is read again in front of one of `unionEnds`. -/
theorem TypeExpr.read?_append {x y z : List Char} {t : TypeExpr} (h : TypeExpr.read? x = some (t, y))
    (hz : Opens unionEnds (skip (y ++ z))) : TypeExpr.read? (x ++ z) = some (t, y ++ z) := by
  rw [read?_eq] at h ⊢
  obtain ⟨c, rfl, -, htakes⟩ := settlesBelow_union (x.length + 1) _ _ _ (Nat.lt_succ_self _) h
  rw [append_assoc]
  exact htakes _ hz

/-- A text that is read as far as space at its end goes on after a bar. -/
theorem TypeExpr.read?_bar {x y z w : List Char} {as bs : List TypeAlternative}
    (hx : TypeExpr.read? x = some (⟨as⟩, y)) (hy : ∀ d ∈ y, Text.isSpace d = true)
    (hz : TypeExpr.read? z = some (⟨bs⟩, w)) : TypeExpr.read? (x ++ '|' :: z) = some (⟨as ++ bs⟩, w) := by
  rw [read?_eq] at hx hz ⊢
  obtain ⟨⟨as', y'⟩, hlist, heq⟩ := map_eq_some_iff.mp hx
  cases heq
  obtain ⟨⟨bs', w'⟩, hlist', heq⟩ := map_eq_some_iff.mp hz
  cases heq
  have hends : SettlesBelow (x.length + 1) ('|' :: []) anyAlternative :=
    (settlesBelow_anyAlternative _).mono (by decide)
  have hskip := length_skip_le x
  obtain ⟨c, hc, hfirm, hagain⟩ := exists_append_of_separated hends (by omega) hlist
  obtain ⟨sp, hsp, hspace⟩ := exists_space_append hc hfirm.ne_nil
  have hbar : skip (y ++ '|' :: z) = '|' :: z := skip_space_append hy (by decide)
  obtain ⟨m, hm, hjoined⟩ := hagain (y ++ '|' :: z) (by rw [hbar]; exact opens_cons mem_cons_self)
  have htext : x ++ '|' :: z = sp ++ (c ++ (y ++ '|' :: z)) := by
    conv_lhs => rw [hsp]
    simp
  rw [htext, union, hspace, hjoined, more_of_separated shrinks_anyAlternative hbar hm hlist']
  rfl

/-- Alternatives that are joined have the members of both, in the order of their union if keys tell them
apart. -/
theorem TypeExpr.union?_append {ctx : NameContext} {as bs : List TypeAlternative} {u v : TypeUnion}
    (hu : TypeExpr.union? ctx ⟨as⟩ = some u) (hv : TypeExpr.union? ctx ⟨bs⟩ = some v) :
    ∃ w, TypeExpr.union? ctx ⟨as ++ bs⟩ = some w ∧ w.atoms.Perm (ctx.order.union u v).atoms ∧
      (Atom.Separated (u.atoms ++ v.atoms) → w = ctx.order.union u v) := by
  rw [TypeExpr.union?, alternativeUnions?_eq_mapM] at hu hv ⊢
  obtain ⟨us, hus, rfl⟩ := map_eq_some_iff.mp hu
  obtain ⟨vs, hvs, rfl⟩ := map_eq_some_iff.mp hv
  refine ⟨ctx.order.flatten (us ++ vs), ?_, (ctx.order.union_flatten_perm us vs).symm, fun hsep => ?_⟩
  · rw [mapM_append, hus, hvs]
    rfl
  · refine SetOrder.flatten_append us vs (hsep.of_sameKey fun a ha => ?_)
    rw [flatMap_append, mem_append] at ha
    simp only [mem_append, or_and_right, exists_or]
    exact ha.imp SetOrder.exists_mem_ofList SetOrder.exists_mem_ofList

/-! ## Blanks at the end -/

theorem trimChars_eq_nil_iff {x : List Char} : Text.trimChars x = [] ↔ ∀ d ∈ x, Text.isBlank d = true := by
  have hdrop : Text.trimChars x = [] ↔ ∀ d ∈ x.dropWhile Text.isBlank, Text.isBlank d = true :=
    rdropWhile_eq_nil_iff
  rw [hdrop]
  refine ⟨fun h => dropWhile_eq_nil_iff.mp ?_, fun h d hd => h d ((dropWhile_suffix _).mem hd)⟩
  have hhead := head?_dropWhile_not Text.isBlank x
  cases hrest : x.dropWhile Text.isBlank with
  | nil => rfl
  | cons d z =>
    rw [hrest] at h hhead
    simp [h d mem_cons_self] at hhead

/-- The blanks that are no space are the four separators among the controls. -/
theorem mem_separatorControls {d : Char} (hblank : Text.isBlank d = true) (hspace : Text.isSpace d = false) :
    d ∈ separatorControls := by
  simp only [Text.isBlank, hspace, Bool.false_or, Bool.and_eq_true, decide_eq_true_eq] at hblank
  have hcases : d.toNat = 28 ∨ d.toNat = 29 ∨ d.toNat = 30 ∨ d.toNat = 31 := by omega
  rw [← Char.ofNat_toNat d]
  rcases hcases with h | h | h | h <;> rw [h] <;> decide

/-- All blanks at the end of the text are space. -/
def EndsInSpace (text : String) : Prop := ∀ d ∈ text.toList.rtakeWhile Text.isBlank, Text.isSpace d = true

instance (text : String) : Decidable (EndsInSpace text) := inferInstanceAs (Decidable (∀ d ∈ _, _))

/-- The blanks after what ends firmly are all the blanks at the end. -/
theorem rtakeWhile_of_firm {c y : List Char} (hc : Firm c) (hy : ∀ d ∈ y, Text.isBlank d = true) :
    (c ++ y).rtakeWhile Text.isBlank = y := by
  obtain ⟨b, d, rfl, hd⟩ := hc
  have hblank : Text.isBlank d = false := by
    rcases hd with hd | hd
    · exact isBlank_of_isWordPart hd
    · exact forall_mem_of_all (p := fun d => Text.isBlank d = false) (by decide) d hd
  rw [List.rtakeWhile, reverse_append, takeWhile_append_of_pos (by simpa using hy)]
  simp [hblank]

namespace NameContext

variable {ctx : NameContext} {text a b : String} {u v : TypeUnion}

/-- A text is read as a type if it begins with one and only blanks follow. -/
theorem read_eq_ok_iff : ctx.read text = .ok u ↔ ∃ t y, TypeExpr.read? text.toList = some (t, y) ∧
    t.union? ctx = some u ∧ ∀ d ∈ y, Text.isBlank d = true := by
  rw [read, readPart?_eq]
  cases hread : TypeExpr.read? text.toList with
  | none => simp
  | some r =>
    obtain ⟨t, y⟩ := r
    cases hu : t.union? ctx with
    | none => simp [hu]
    | some w =>
      simp only [bind_some, hu, map_some, List.isEmpty_iff, trimChars_eq_nil_iff]
      split
      · next hblank => simpa [hu] using fun _ => hblank
      · next hblank => simpa [hu] using fun _ => hblank

/-- A type with something else than blanks after it is none. -/
theorem exists_read_eq_error {t : TypeExpr} {y : List Char} (hread : TypeExpr.read? text.toList = some (t, y))
    {d : Char} (hd : d ∈ y) (hblank : Text.isBlank d = false) : ∃ e, ctx.read text = .error e := by
  cases hresult : ctx.read text with
  | error e => exact ⟨e, rfl⟩
  | ok u =>
    obtain ⟨_, _, hagain, -, hy⟩ := read_eq_ok_iff.mp hresult
    cases hread.symm.trans hagain
    rw [hy d hd] at hblank
    cases hblank

/-- Two types joined by a bar are read as a type with the members of both, and as their union if keys tell
the members apart, unless a blank that is no space stands between the first type and the bar. Then the text
is no type. -/
theorem joined_types_are_read_as_union (ha : ctx.read a = .ok u) (hb : ctx.read b = .ok v) :
    (EndsInSpace a → ∃ w, ctx.read (a ++ "|" ++ b) = .ok w ∧ w.atoms.Perm (ctx.order.union u v).atoms ∧
      (Atom.Separated (u.atoms ++ v.atoms) → w = ctx.order.union u v)) ∧
    (¬ EndsInSpace a → ∃ e, ctx.read (a ++ "|" ++ b) = .error e) := by
  obtain ⟨⟨as⟩, y, hread, hu, hy⟩ := read_eq_ok_iff.mp ha
  obtain ⟨⟨bs⟩, w, hread', hv, hw⟩ := read_eq_ok_iff.mp hb
  have htext : (a ++ "|" ++ b).toList = a.toList ++ '|' :: b.toList := by simp
  have hblanks : a.toList.rtakeWhile Text.isBlank = y := by
    obtain ⟨c, hc, hfirm, -⟩ := TypeExpr.exists_append_of_read? hread
    rw [hc, rtakeWhile_of_firm hfirm hy]
  rw [EndsInSpace, hblanks]
  constructor
  · intro hspace
    obtain ⟨t, ht, hjoined⟩ := TypeExpr.union?_append hu hv
    refine ⟨t, read_eq_ok_iff.mpr ⟨_, w, ?_, ht, hw⟩, hjoined⟩
    rw [htext, TypeExpr.read?_bar hread hspace hread']
  · intro hcontrol
    -- The first of these blanks ends the type.
    obtain ⟨sp, hsp, hskip⟩ := exists_space y
    cases hrest : skip y with
    | nil => exact absurd (by rwa [hskip, hrest, append_nil]) hcontrol
    | cons d z =>
      have hspace : Text.isSpace d = false := isSpace_head_skip (x := y) (by rw [hrest]; rfl)
      have hd : d ∈ y := by rw [hskip, hrest]; simp
      have hopens : Opens unionEnds (skip (y ++ '|' :: b.toList)) := by
        rw [hskip, hrest, append_assoc, cons_append, skip_space_append hsp hspace]
        exact opens_cons (mem_append_right _ (mem_separatorControls (hy d hd) hspace))
      have hjoined := TypeExpr.read?_append hread hopens
      rw [← htext] at hjoined
      exact exists_read_eq_error hjoined (d := '|') (by simp) (by decide)

theorem shape_joined_to_callable : ∃ u v, global.read "array\x7b0?: A, b: ?int[]\x7d \t" = .ok u ∧
    global.read " callable(A|B $x): C | null" = .ok v ∧
    global.read ("array\x7b0?: A, b: ?int[]\x7d \t" ++ "|" ++ " callable(A|B $x): C | null") =
      .ok (u.union v) := by
  obtain ⟨u, hu, hkinds⟩ := global.exists_read (rfl : "array\x7b0?: A, b: ?int[]\x7d \t".toList = _)
    (f := fun u => u.atoms.map Atom.kind) (x := [3]) (by decide +kernel)
  obtain ⟨v, hv, hkinds'⟩ := global.exists_read (rfl : " callable(A|B $x): C | null".toList = _)
    (f := fun v => v.atoms.map Atom.kind) (x := [0, 4]) (by decide +kernel)
  obtain ⟨w, hw, -, hunion⟩ :=
    (joined_types_are_read_as_union hu hv).1 (all_eq_true.mp (by decide +kernel))
  have hsep : Atom.Separated (u.atoms ++ v.atoms) := by
    apply Atom.separated_of_nodup_kind
    rw [map_append, hkinds, hkinds']
    decide
  exact ⟨u, v, hu, hv, hw.trans (congrArg Except.ok (hunion hsep))⟩

/-- A control that counts as a blank may stand after a type, but not before a bar. -/
theorem separator_control_before_bar : ∃ u v, global.read "int\x1c" = .ok u ∧ global.read "string" = .ok v ∧
    ∃ e, global.read "int\x1c|string" = .error e := by
  obtain ⟨u, hu, -⟩ := global.exists_read (rfl : "int\x1c".toList = _) (f := fun _ => ()) (x := ())
    (by decide +kernel)
  obtain ⟨v, hv, -⟩ := global.exists_read (rfl : "string".toList = _) (f := fun _ => ()) (x := ())
    (by decide +kernel)
  obtain ⟨⟨_, _⟩, hread, rfl⟩ := map_eq_some_iff.mp
    (by decide +kernel : (TypeExpr.read? "int\x1c|string".toList).map (·.2) = some "\x1c|string".toList)
  exact ⟨u, v, hu, hv, exists_read_eq_error hread (d := '|') (by decide) (by decide)⟩

end NameContext

end PhpFlow
