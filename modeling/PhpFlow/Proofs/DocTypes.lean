import PhpFlow.Doc
import PhpFlow.Proofs.Legible
import PhpFlow.Proofs.Settled

/-!
# The types of doc comments

A tag with a type keeps the text of the type, cut off the front of what follows the tag. Unless a key of a
shape has more digits than are read, a later reading accepts the text just if a type stands at the front, and
it gives the type that stands there.
-/
namespace PhpFlow

open List Option

variable {x body sep : List Char} {ctx : NameContext}

/-! ## Keys with too many digits -/

def EntryLabel.fits : EntryLabel → Bool
  | .word _ => true
  | .number _ ds => ds.length ≤ Number.digitLimit

theorem EntryLabel.isSome_key? (l : EntryLabel) : l.key?.isSome = l.fits := by
  cases l with
  | word s => rfl
  | number negative ds =>
    rw [key?, fits]
    split
    · next hlong => simp [hlong]
    · next hshort => simp [Nat.not_lt.mp hshort]

theorem isSome_writtenKey? (l : Option EntryLabel) :
    (writtenKey? l).isSome = l.toList.all EntryLabel.fits := by
  cases l with
  | none => rfl
  | some l => simp [writtenKey?, l.isSome_key?]

mutual

def TypeHead.labels : TypeHead → List EntryLabel
  | .constant _ _ => []
  | .shape es => entryLabels es
  | .callable as r => typeLabels as ++ resultLabels r
  | .tuple ts => typeLabels ts
  | .generic _ as => typeLabels as
  | .genericAny _ => []
  | .name _ => []

def TypeAlternative.labels : TypeAlternative → List EntryLabel
  | ⟨_, h, _⟩ => h.labels

def TypeExpr.labels : TypeExpr → List EntryLabel
  | ⟨as⟩ => alternativeLabels as

def alternativeLabels : List TypeAlternative → List EntryLabel
  | [] => []
  | a :: as => a.labels ++ alternativeLabels as

def typeLabels : List TypeExpr → List EntryLabel
  | [] => []
  | t :: ts => t.labels ++ typeLabels ts

def resultLabels : Option TypeExpr → List EntryLabel
  | none => []
  | some t => t.labels

def entryLabels : List TypeEntry → List EntryLabel
  | [] => []
  | ⟨l, _, t⟩ :: es => l.toList ++ (t.labels ++ entryLabels es)

end

section Labels

variable (ctx : NameContext)

mutual

theorem TypeHead.isSome_union? (h : TypeHead) : (h.union? ctx).isSome = h.labels.all EntryLabel.fits := by
  cases h with
  | constant owner c => rfl
  | shape es =>
    rw [TypeHead.union?, isSome_map]
    exact isSome_entryFields? 0 es
  | callable as r =>
    have has := isSome_unions? as
    have hr := isSome_resultUnion? r
    rw [TypeHead.union?, TypeHead.labels, all_append, ← has, ← hr]
    cases unions? ctx as with
    | none => rfl
    | some us => cases resultUnion? ctx r <;> rfl
  | tuple ts =>
    rw [TypeHead.union?, isSome_map]
    exact isSome_tupleFields? 0 ts
  | generic n as =>
    rw [TypeHead.union?, isSome_map]
    exact isSome_unions? as
  | genericAny n => rfl
  | name n => rfl

theorem TypeAlternative.isSome_union? (a : TypeAlternative) :
    (a.union? ctx).isSome = a.labels.all EntryLabel.fits := by
  obtain ⟨nullable, h, k⟩ := a
  rw [TypeAlternative.union?, isSome_map]
  exact h.isSome_union?

theorem TypeExpr.isSome_union? (t : TypeExpr) : (t.union? ctx).isSome = t.labels.all EntryLabel.fits := by
  obtain ⟨as⟩ := t
  rw [TypeExpr.union?, isSome_map]
  exact isSome_alternativeUnions? as

theorem isSome_alternativeUnions? (as : List TypeAlternative) :
    (alternativeUnions? ctx as).isSome = (alternativeLabels as).all EntryLabel.fits := by
  cases as with
  | nil => rfl
  | cons a as =>
    have ha := a.isSome_union?
    have has := isSome_alternativeUnions? as
    rw [alternativeUnions?, alternativeLabels, all_append, ← ha, ← has]
    cases a.union? ctx with
    | none => rfl
    | some u => cases alternativeUnions? ctx as <;> rfl

theorem isSome_unions? (ts : List TypeExpr) :
    (unions? ctx ts).isSome = (typeLabels ts).all EntryLabel.fits := by
  cases ts with
  | nil => rfl
  | cons t ts =>
    have ht := t.isSome_union?
    have hts := isSome_unions? ts
    rw [unions?, typeLabels, all_append, ← ht, ← hts]
    cases t.union? ctx with
    | none => rfl
    | some u => cases unions? ctx ts <;> rfl

theorem isSome_resultUnion? (r : Option TypeExpr) :
    (resultUnion? ctx r).isSome = (resultLabels r).all EntryLabel.fits := by
  cases r with
  | none => rfl
  | some t =>
    rw [resultUnion?, isSome_map]
    exact t.isSome_union?

theorem isSome_entryFields? (next : Int) (es : List TypeEntry) :
    (entryFields? ctx next es).isSome = (entryLabels es).all EntryLabel.fits := by
  cases es with
  | nil => rfl
  | cons e es =>
    obtain ⟨l, o, t⟩ := e
    have ht := t.isSome_union?
    have hl := isSome_writtenKey? l
    rw [entryFields?_cons, entryLabels, all_append, all_append, ← ht, ← hl]
    cases writtenKey? l with
    | none => rfl
    | some written =>
      have hes := isSome_entryFields? (ArrayKey.orNext next written).2 es
      rw [← hes]
      cases t.union? ctx with
      | none => rfl
      | some u => rw [bind_some, bind_some, isSome_map, isSome_some,
          isSome_some, Bool.true_and, Bool.true_and]

theorem isSome_tupleFields? (next : Nat) (ts : List TypeExpr) :
    (tupleFields? ctx next ts).isSome = (typeLabels ts).all EntryLabel.fits := by
  cases ts with
  | nil => rfl
  | cons t ts =>
    have ht := t.isSome_union?
    have hts := isSome_tupleFields? (next + 1) ts
    rw [tupleFields?, typeLabels, all_append, ← ht, ← hts]
    cases t.union? ctx with
    | none => rfl
    | some u => cases tupleFields? ctx (next + 1) ts <;> rfl

end

end Labels

/-! ## Texts that go on

A text that begins with a type still does when more is written after it, though the type may be another. -/

namespace Reader

theorem isSome_name_of_isName {n : List Char} (h : IsName n) (z : List Char) : (name (n ++ z)).isSome = true := by
  obtain ⟨ws, hne, hws, htext⟩ := h
  cases ws with
  | nil => exact absurd rfl hne
  | cons w ws =>
    obtain ⟨c, cs, rfl, hc⟩ := exists_cons_of_isWord (hws w mem_cons_self)
    have hslashed : slashed ((c :: cs) :: ws) = '\\' :: c :: (cs ++ slashed ws) := by simp [slashed]
    rw [hslashed] at htext
    rcases htext with rfl | htext
    · simp [name, segments, word, hc]
    · obtain rfl : n = c :: (cs ++ slashed ws) := by simpa using htext
      have hslash : c ≠ '\\' := by
        rintro rfl
        exact absurd hc (by decide)
      rw [cons_append, name_cons hslash, isSome_map]
      simp [word, hc]

variable {alt : Reader TypeAlternative} {N : Nat}

theorem isSome_head_of_isName {n : List Char} (h : IsName n) (z : List Char) :
    (head alt (n ++ z)).isSome = true := by
  have hname := isSome_name_of_isName h z
  simp only [head, orElse_eq_orElse, orElse_eq_or, isSome_or, isSome_map, hname, Bool.or_true]

theorem exists_of_head {x y : List Char} {hd : TypeHead} (h : head alt x = some (hd, y)) :
    (∃ n z, x = n ++ z ∧ IsName n) ∨ tuple (union alt) x = some (hd, y) := by
  have hname {n : String} {z : List Char} (h : name x = some (n, z)) : ∃ n z, x = n ++ z ∧ IsName n :=
    ⟨n.toList, z, append_of_name h, isName_of_name h⟩
  unfold head at h
  simp only [orElse_eq_orElse, orElse_eq_or, or_eq_some_iff] at h
  rcases h with h | ⟨-, h | ⟨-, h | ⟨-, h | ⟨-, h | ⟨-, h⟩⟩⟩⟩⟩
  · unfold constant at h
    split at h
    · cases h
    · next owner rest howner => exact .inl (hname howner)
  · rw [shape_eq] at h
    obtain ⟨⟨_, rest⟩, hkey, -⟩ := bind_eq_some_iff.mp h
    obtain ⟨n, hn, hlower⟩ := exists_append_of_keyword hkey
    exact .inl ⟨n, rest, hn, isName_of_isWord (isWord_of_map_toLower (forall_mem_of_all (by decide)) hlower)⟩
  · rw [callable_eq] at h
    obtain ⟨⟨_, rest⟩, hkey, -⟩ := bind_eq_some_iff.mp h
    obtain ⟨n, hn, hlower⟩ := exists_append_of_keyword hkey
    exact .inl ⟨n, rest, hn, isName_of_isWord (isWord_of_map_toLower (forall_mem_of_all (by decide)) hlower)⟩
  · exact .inr h
  · unfold generic at h
    split at h
    · cases h
    · next n rest hn => exact .inl (hname hn)
  · obtain ⟨⟨n, rest⟩, hn, -⟩ := map_eq_some_iff.mp h
    exact .inl (hname hn)

theorem isSome_head_append {x y : List Char} {hd : TypeHead} (h : head anyAlternative x = some (hd, y))
    (z : List Char) : (head anyAlternative (x ++ z)).isSome = true := by
  rcases exists_of_head h with ⟨n, w, rfl, hn⟩ | htuple
  · rw [append_assoc]
    exact isSome_head_of_isName hn _
  · obtain ⟨c, rfl, -, hagain⟩ :=
      exists_append_of_tuple (settlesBelow_anyAlternative x.length) (Nat.lt_succ_self _) htuple
    rw [append_assoc, hagain]
    rfl

theorem isSome_alternativeStep (x : List Char) :
    (alternativeStep alt x).isSome = (head alt (nullMark x).2).isSome := by
  rw [alternativeStep_eq, isSome_map]

theorem isSome_union (x : List Char) : (union alt x).isSome = (alt (skip x)).isSome := by
  rw [union, isSome_map, separated]
  cases alt (skip x) <;> rfl

end Reader

open Reader

theorem TypeExpr.isSome_read?_append (h : (TypeExpr.read? x).isSome = true) (z : List Char) :
    (TypeExpr.read? (x ++ z)).isSome = true := by
  rw [read?_eq, isSome_union, anyAlternative_eq, isSome_alternativeStep] at h ⊢
  obtain ⟨⟨hd, rest⟩, hread⟩ := isSome_iff_exists.mp h
  obtain ⟨c, hc, hfirm, -⟩ :=
    endsHead_head (settlesBelow_anyAlternative (nullMark (skip x)).2.length) (Nat.lt_succ_self _) hread
  obtain ⟨b, hb, hmark⟩ := exists_append_of_nullMark hc hfirm.ne_nil
  have hne : b ++ c ≠ [] := fun hnil => hfirm.ne_nil (append_eq_nil_iff.mp hnil).2
  rw [← append_assoc] at hb
  obtain ⟨sp, hx, hsp⟩ := exists_space_append hb hne
  have hskip : skip (x ++ z) = b ++ (c ++ (rest ++ z)) := by
    have htext : x ++ z = sp ++ (b ++ c ++ (rest ++ z)) := by
      conv_lhs => rw [hx]
      simp
    rw [htext, hsp, append_assoc]
  rw [hskip, hmark, ← append_assoc, ← hc]
  exact isSome_head_append hread z

/-! ## What a name context makes of a text -/

section Context

variable {ctx : NameContext} {x : List Char}

theorem NameContext.readPart?_eq (ctx : NameContext) (x : List Char) :
    ctx.readPart? x = (TypeExpr.read? x).bind fun r => (r.1.union? ctx).map fun u => (u, r.2) := by
  unfold readPart?
  cases TypeExpr.read? x <;> rfl

def KeysFit (x : List Char) : Prop :=
  ∀ t rest, TypeExpr.read? x = some (t, rest) → ∀ l ∈ t.labels, l.fits = true

theorem isSome_readPart? (ctx : NameContext) (h : KeysFit x) :
    (ctx.readPart? x).isSome = (TypeExpr.read? x).isSome := by
  rw [NameContext.readPart?_eq]
  cases hread : TypeExpr.read? x with
  | none => rfl
  | some r =>
    have hfits := all_eq_true.mpr (h r.1 r.2 hread)
    rw [← TypeExpr.isSome_union? ctx] at hfits
    rw [bind_some, isSome_map, hfits]
    rfl

/-- Where a text does not begin with a type, no part of it does. -/
theorem readPart?_eq_none_of_prefix (h : KeysFit x) (hnone : ctx.readPart? x = none) {p : List Char}
    (hp : p <+: x) : ctx.readPart? p = none := by
  obtain ⟨z, rfl⟩ := hp
  have hread : TypeExpr.read? (p ++ z) = none := by
    have hsome := isSome_readPart? ctx h
    rw [hnone] at hsome
    exact not_isSome_iff_eq_none.mp (by rw [← hsome]; simp)
  rw [NameContext.readPart?_eq]
  cases hp : TypeExpr.read? p with
  | none => rfl
  | some r =>
    have hsome := TypeExpr.isSome_read?_append (x := p) (by rw [hp]; rfl) z
    rw [hread] at hsome
    cases hsome

/-- What is read at the front of a text is read again when it stands alone. -/
theorem exists_append_of_readPart? {u : TypeUnion} {rest : List Char}
    (h : ctx.readPart? x = some (u, rest)) :
    ∃ c, x = c ++ rest ∧ Firm c ∧ ctx.readPart? c = some (u, []) := by
  rw [NameContext.readPart?_eq] at h
  obtain ⟨⟨t, rest'⟩, hread, hunion⟩ := bind_eq_some_iff.mp h
  obtain ⟨u', hu, heq⟩ := map_eq_some_iff.mp hunion
  cases heq
  obtain ⟨c, hc, hfirm, hagain⟩ := TypeExpr.exists_append_of_read? hread
  refine ⟨c, hc, hfirm, ?_⟩
  rw [NameContext.readPart?_eq, hagain, bind_some, hu]
  rfl

theorem read_eq_error_of_none {type : String} (h : ctx.readPart? type.toList = none) :
    ∃ e, ctx.read type = .error e := by
  simp only [NameContext.read, h]
  exact ⟨_, rfl⟩

theorem read_eq_ok {type : String} {u : TypeUnion} (h : ctx.readPart? type.toList = some (u, [])) :
    ctx.read type = .ok u := by
  simp only [NameContext.read, h]
  rfl

end Context

/-! ## Blanks around a type -/

theorem dropEnd_concat {p : Char → Bool} {d : Char} (hd : p d = false) (b : List Char) :
    Text.dropEnd p (b ++ [d]) = b ++ [d] := by
  simp [Text.dropEnd, hd]

theorem dropEnd_of_firm {c : List Char} (hfirm : Firm c) : Text.dropEnd Text.isBlank c = c := by
  obtain ⟨b, d, rfl, hd⟩ := hfirm
  apply dropEnd_concat
  rcases hd with hd | hd
  · exact isBlank_of_isWordPart hd
  · exact forall_mem_of_all (p := fun d => Text.isBlank d = false) (by decide) d hd

theorem trimChars_of_firm {c : List Char} (hfirm : Firm c) (h : ∀ d ∈ c.head?, Text.isBlank d = false) :
    Text.trimChars c = c := by
  have hfront : c.dropWhile Text.isBlank = c := by
    cases c with
    | nil => rfl
    | cons d c => simp [h d rfl]
  rw [Text.trimChars, hfront, dropEnd_of_firm hfirm]

theorem dropEnd_prefix (p : Char → Bool) (x : List Char) : Text.dropEnd p x <+: x := by
  have hsuffix := dropWhile_suffix (l := x.reverse) p
  have hprefix := reverse_prefix.mpr hsuffix
  rwa [reverse_reverse] at hprefix

theorem isBlank_head_trimChars (x : List Char) : ∀ d ∈ (Text.trimChars x).head?, Text.isBlank d = false := by
  intro d hd
  obtain ⟨z, hz⟩ := dropEnd_prefix Text.isBlank (x.dropWhile Text.isBlank)
  obtain ⟨w, hw⟩ := eq_cons_of_mem_head hd
  have hw' : Text.dropEnd Text.isBlank (x.dropWhile Text.isBlank) = d :: w := hw
  have hend := head?_dropWhile_not Text.isBlank x
  rw [← hz, hw'] at hend
  exact hend

/-! ## Tags with a type -/

def DocTag.type? : DocTag → Option String
  | .var type _ _ => some type
  | .param type _ _ _ _ => some type
  | .returns type _ => some type
  | _ => none

namespace DocLine

variable {body : List Char}

def typedTags : List String := ["var", "param", "return", "returns"]

theorem of_type?_meaning {tag : String} {type : String} (h : (meaning tag body).type? = some type) :
    plainTag tag ∈ typedTags ∧ body ≠ [] ∧ type = String.ofList (splitType body).1 := by
  unfold meaning at h
  dsimp only at h
  split at h
  · next htag =>
    have hmem : plainTag tag ∈ typedTags := by
      simp only [Bool.or_eq_true, decide_eq_true_eq] at htag
      rcases htag with (htag | htag) | (htag | htag) <;> rw [htag] <;> decide
    split at h
    · cases h
    · next hbody =>
      have hne : body ≠ [] := by
        rintro rfl
        exact hbody rfl
      refine ⟨hmem, hne, ?_⟩
      split at h
      · cases h
        rfl
      · split at h <;>
          · cases h
            rfl
  · split at h
    · split at h <;> cases h
    · cases h

theorem splitType_of_readPart? {rest : List Char} {u : TypeUnion}
    (h : NameContext.global.readPart? body = some (u, rest)) :
    (splitType body).1 = Text.trimChars (body.take (body.length - rest.length)) := by
  rw [splitType, h]

theorem splitType_of_none (h : NameContext.global.readPart? body = none) :
    (splitType body).1 = body.takeWhile (· ≠ ' ') := by
  rw [splitType, h]

/-- The text after a tag has no blanks at its front. -/
theorem isBlank_head_of_tag? {line tag : List Char} (h : tag? line = some (tag, body)) :
    ∀ d ∈ body.head?, Text.isBlank d = false := by
  unfold tag? at h
  split at h
  · split at h
    · dsimp only at h
      split at h
      · cases h
        intro d hd
        cases hd
      · split at h
        · cases h
          exact isBlank_head_trimChars _
        · cases h
    · cases h
  · cases h

theorem exists_of_mem_entries {text : String} {range : Range} {e : DocEntry} {type : String}
    (he : e ∈ (DocComment.ofText text range).entries) (htype : e.tag.type? = some type) :
    ∃ line ∈ contents range 0 range.startByte (lines text.toList), ∃ tag body,
      tag? line.1 = some (tag, body) ∧ e = ⟨line.2, meaning (String.ofList tag) body⟩ := by
  obtain ⟨⟨content, at_⟩, hline, hentry⟩ := mem_filterMap.mp he
  refine ⟨(content, at_), hline, ?_⟩
  unfold entry? at hentry
  split at hentry
  · cases hentry
  · next heq =>
    cases heq
    split at hentry
    · next tag body htag =>
      cases hentry
      exact ⟨tag, body, htag, rfl⟩
    · cases hentry
      cases htype

end DocLine

/-- Whether keys fit does not depend on what names refer to. -/
theorem exists_readPart?_global {rest : List Char} {u : TypeUnion} (h : ctx.readPart? x = some (u, rest)) :
    ∃ v, NameContext.global.readPart? x = some (v, rest) := by
  rw [NameContext.readPart?_eq] at h ⊢
  obtain ⟨⟨t, rest'⟩, hread, hunion⟩ := bind_eq_some_iff.mp h
  obtain ⟨u', hu, heq⟩ := map_eq_some_iff.mp hunion
  cases heq
  have hsome : (t.union? NameContext.global).isSome = true := by
    rw [TypeExpr.isSome_union?, ← TypeExpr.isSome_union? ctx, hu]
    rfl
  obtain ⟨v, hv⟩ := isSome_iff_exists.mp hsome
  exact ⟨v, by rw [hread, bind_some, hv]; rfl⟩

/-- The text kept for a type that was read is the text that it was read from. -/
theorem read_split {rest : List Char} {u : TypeUnion} (hblank : ∀ d ∈ body.head?, Text.isBlank d = false)
    (h : ctx.readPart? body = some (u, rest)) :
    ∃ taken, body = taken ++ rest ∧ String.ofList (DocLine.splitType body).1 = DocLine.trimmed taken ∧
      ctx.read (String.ofList (DocLine.splitType body).1) = .ok u := by
  obtain ⟨taken, rfl, hfirm, hagain⟩ := exists_append_of_readPart? h
  obtain ⟨v, hv⟩ := exists_readPart?_global h
  have htake : (taken ++ rest).take ((taken ++ rest).length - rest.length) = taken := by
    rw [length_append, Nat.add_sub_cancel]
    exact take_left
  have hsplit : (DocLine.splitType (taken ++ rest)).1 = Text.trimChars taken := by
    rw [DocLine.splitType_of_readPart? hv, htake]
  have htrim : Text.trimChars taken = taken := by
    apply trimChars_of_firm hfirm
    cases taken with
    | nil => exact absurd rfl hfirm.ne_nil
    | cons d taken => exact hblank
  refine ⟨taken, rfl, by rw [hsplit]; rfl, ?_⟩
  rw [hsplit, htrim]
  apply read_eq_ok
  rwa [String.toList_ofList]

theorem read_split_of_none (hfit : KeysFit body) (h : ctx.readPart? body = none) :
    ∃ e, ctx.read (String.ofList (DocLine.splitType body).1) = .error e := by
  have hglobal : NameContext.global.readPart? body = none := by
    cases hread : NameContext.global.readPart? body with
    | none => rfl
    | some r =>
      have hsome := isSome_readPart? ctx hfit
      rw [← isSome_readPart? NameContext.global hfit, h, hread] at hsome
      cases hsome
  apply read_eq_error_of_none
  rw [String.toList_ofList, DocLine.splitType_of_none hglobal]
  exact readPart?_eq_none_of_prefix hfit h ( takeWhile_prefix _)

/-- The type text of an entry is rejected just if no type stands at the front of what follows the tag, and
else it is read as the type that stands there. -/
theorem type_text_of_entry_reads_back {text : String} {range : Range} {e : DocEntry} {type : String}
    (he : e ∈ (DocComment.ofText text range).entries) (htype : e.tag.type? = some type) :
    ∃ line ∈ DocLine.contents range 0 range.startByte (DocLine.lines text.toList), ∃ tag body,
      DocLine.tag? line.1 = some (tag, body) ∧ e = ⟨line.2, DocLine.meaning (String.ofList tag) body⟩ ∧
      DocLine.plainTag (String.ofList tag) ∈ DocLine.typedTags ∧
      ∀ ctx : NameContext,
        (KeysFit body →
          ((∃ err, ctx.read type = .error err) ↔ ctx.readPart? body = none) ∧
          ((∃ err, ctx.read type = .error err) ↔ ∀ p, p <+: body → ctx.readPart? p = none)) ∧
        ∀ u rest, ctx.readPart? body = some (u, rest) →
          ∃ taken, body = taken ++ rest ∧ type = DocLine.trimmed taken ∧ ctx.read type = .ok u := by
  obtain ⟨line, hline, tag, body, htag, rfl⟩ := DocLine.exists_of_mem_entries he htype
  dsimp only at htype
  obtain ⟨hmem, -, rfl⟩ := DocLine.of_type?_meaning htype
  have hblank := DocLine.isBlank_head_of_tag? htag
  refine ⟨line, hline, tag, body, htag, rfl, hmem, fun ctx => ⟨fun hfit => ?_, ?_⟩⟩
  · have hreject : (∃ err, ctx.read (String.ofList (DocLine.splitType body).1) = .error err) ↔
        ctx.readPart? body = none := by
      constructor
      · rintro ⟨err, herr⟩
        cases hread : ctx.readPart? body with
        | none => rfl
        | some r =>
          obtain ⟨-, -, -, hok⟩ := read_split hblank hread
          rw [hok] at herr
          cases herr
      · exact read_split_of_none hfit
    have hprefix : ctx.readPart? body = none ↔ ∀ p, p <+: body → ctx.readPart? p = none :=
      ⟨fun hnone p hp => readPart?_eq_none_of_prefix hfit hnone hp, fun h => h body prefix_rfl⟩
    exact ⟨hreject, hreject.trans hprefix⟩
  · intro u rest hread
    exact read_split hblank hread

/-- A tag with the name of a tool in front, and a type with space in it. -/
theorem tool_tag_reads_back :
    ∃ e ∈ (DocComment.ofText "/** @psalm-var callable(A): (B|null) | C[] $x */" ⟨⟨0, 0⟩, ⟨0, 0⟩, 0, 0⟩).entries,
      e.tag.type? = some "callable(A): (B|null) | C[]" ∧
      ∃ range tag body, e = ⟨range, DocLine.meaning (String.ofList tag) body⟩ ∧
        ∀ ctx u rest, NameContext.readPart? ctx body = some (u, rest) →
          ctx.read "callable(A): (B|null) | C[]" = .ok u := by
  have he : (⟨⟨⟨0, 4⟩, ⟨0, 45⟩, 4, 45⟩, .var "callable(A): (B|null) | C[]" (some "x") ""⟩ : DocEntry) ∈
      (DocComment.ofText "/** @psalm-var callable(A): (B|null) | C[] $x */" ⟨⟨0, 0⟩, ⟨0, 0⟩, 0, 0⟩).entries := by
    decide +kernel
  have hagrees := type_text_of_entry_reads_back he rfl
  generalize DocLine.contents _ _ _ _ = lines at hagrees
  obtain ⟨line, -, tag, body, -, heq, -, hok⟩ := hagrees
  exact ⟨_, he, rfl, line.2, tag, body, heq, fun ctx u rest hread => ((hok ctx).2 u rest hread).choose_spec.2.2⟩

/-! ## A key with too many digits

Nothing else parts the two readings. Behind such a key the whole type is taken for none, though
a type stands in front of it. -/

def longKey (n : Nat) : List Char := List.replicate n '9' ++ ": int\x7d $x".toList

def longKeyText (sep : List Char) (n : Nat) : List Char :=
  "int".toList ++ (sep ++ ("array".toList ++ '\x7b' :: longKey n))

theorem readPart?_longKeyText : ∀ sep ∈ [['|'], [' ', '|', ' ']],
    NameContext.global.readPart? (longKeyText sep (Number.digitLimit + 1)) = none := by
  have hnone : ([['|'], [' ', '|', ' ']].all fun sep =>
      (NameContext.global.readPart? (longKeyText sep (Number.digitLimit + 1))).isNone) = true := by
    decide +kernel
  intro sep hsep
  exact isNone_iff_eq_none.mp (all_eq_true.mp hnone sep hsep)

set_option maxRecDepth 100000 in
/-- The one line of a comment with such a type is a tag. -/
theorem tag?_longKeyText : ∀ sep ∈ [['|'], [' ', '|', ' ']],
    (DocLine.contents ⟨⟨0, 0⟩, ⟨0, 0⟩, 0, 0⟩ 0 0 (DocLine.lines ("/** @var ".toList ++
      (longKeyText sep (Number.digitLimit + 1) ++ " */".toList)))).map (fun line => DocLine.tag? line.1) =
        [some ("var".toList, longKeyText sep (Number.digitLimit + 1))] := by
  decide +kernel

theorem DocLine.entry?_of_tag? {content tag body : List Char} {range : Range}
    (h : tag? content = some (tag, body)) :
    entry? (content, range) = some ⟨range, meaning (String.ofList tag) body⟩ := by
  unfold entry?
  split
  · next heq =>
    cases heq
    cases h
  · next heq =>
    cases heq
    rw [h]

theorem type?_var (hne : body ≠ []) (hdollar : '$' ∉ body.head?) :
    (DocLine.meaning "var" body).type? = some (String.ofList (DocLine.splitType body).1) := by
  have hplain : DocLine.plainTag "var" = "var" := by decide
  have hhead : ¬ body.head? = some '$' := hdollar
  simp [DocLine.meaning, hplain, hne, hhead, DocTag.type?]

/-- A key with too many digits misleads the split in both ways. Without space before it, the text that is
kept is rejected, though `int` stands at the front. With space, the text that is kept is `int`, though what
follows the tag is rejected. -/
theorem long_key_misleads_split :
    (∃ text e type body p, e ∈ (DocComment.ofText text ⟨⟨0, 0⟩, ⟨0, 0⟩, 0, 0⟩).entries ∧
      e.tag = DocLine.meaning "var" body ∧ e.tag.type? = some type ∧
      (∃ err, NameContext.global.read type = .error err) ∧
      p <+: body ∧ (NameContext.global.readPart? p).isSome = true) ∧
    ∃ text e type body, e ∈ (DocComment.ofText text ⟨⟨0, 0⟩, ⟨0, 0⟩, 0, 0⟩).entries ∧
      e.tag = DocLine.meaning "var" body ∧ e.tag.type? = some type ∧
      (∃ u, NameContext.global.read type = .ok u) ∧ NameContext.global.readPart? body = none := by
  have hnone := readPart?_longKeyText
  have hvar (sep : List Char) (hsep : sep ∈ [['|'], [' ', '|', ' ']]) :
      ∃ text e, e ∈ (DocComment.ofText text ⟨⟨0, 0⟩, ⟨0, 0⟩, 0, 0⟩).entries ∧
        e.tag = DocLine.meaning "var" (longKeyText sep (Number.digitLimit + 1)) ∧
        e.tag.type? = some (String.ofList (DocLine.splitType (longKeyText sep (Number.digitLimit + 1))).1) := by
    obtain ⟨line, hline, htag⟩ := map_eq_singleton_iff.mp (tag?_longKeyText sep hsep)
    have hne : longKeyText sep (Number.digitLimit + 1) ≠ [] := by simp [longKeyText]
    have hdollar : '$' ∉ (longKeyText sep (Number.digitLimit + 1)).head? := by simp [longKeyText]
    generalize longKeyText sep (Number.digitLimit + 1) = body at *
    refine ⟨String.ofList ("/** @var ".toList ++ (body ++ " */".toList)), ⟨line.2, DocLine.meaning "var" body⟩, ?_, rfl,
      type?_var hne hdollar⟩
    rw [DocComment.ofText, String.toList_ofList, hline, filterMap_cons_some (DocLine.entry?_of_tag? htag)]
    exact mem_cons_self
  constructor
  · obtain ⟨text, e, he, htag, htype⟩ := hvar ['|'] (by decide)
    refine ⟨text, e, _, _, "int".toList, he, htag, htype, ?_, prefix_append _ _, by decide⟩
    rw [DocLine.splitType_of_none (hnone _ (by simp))]
    -- After `int` a bar is left.
    have hleft : ((NameContext.global.readPart? ((longKeyText ['|'] (Number.digitLimit + 1)).takeWhile
        (· ≠ ' '))).any fun r => (Text.trimChars r.2).isEmpty) = false := by
      decide +kernel
    cases hread : NameContext.global.readPart? ((longKeyText ['|'] (Number.digitLimit + 1)).takeWhile
        (· ≠ ' ')) with
    | none => exact read_eq_error_of_none (by rw [String.toList_ofList, hread])
    | some r =>
      rw [hread, any_some] at hleft
      rw [NameContext.read, String.toList_ofList, hread]
      simp only [hleft]
      exact ⟨_, rfl⟩
  · obtain ⟨text, e, he, htag, htype⟩ := hvar [' ', '|', ' '] (by decide)
    refine ⟨text, e, _, _, he, htag, htype, ?_, hnone _ (by simp)⟩
    have hint : (longKeyText [' ', '|', ' '] (Number.digitLimit + 1)).takeWhile (· ≠ ' ') = "int".toList := rfl
    rw [DocLine.splitType_of_none (hnone _ (by simp)), hint]
    exact ⟨_, rfl⟩

end PhpFlow
