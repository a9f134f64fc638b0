import PhpFlow.Type.Meaning

/-!
# Words and names in type texts

The readers of words and names take nothing but words and names. They take a whole one where the text
after it does not go on with it. A name that begins with a backslash is the text of a qualified name,
and such a text has the parts of that name.
-/
namespace PhpFlow

open List

namespace Reader

def isWord : List Char → Bool
  | [] => false
  | c :: cs => isWordStart c && cs.all isWordPart

def slashed (ws : List (List Char)) : List Char := ws.flatMap fun w => '\\' :: w

def marks : List Char := [',', '|', '>', '\x7d', ')', '<', ':', '\x7b', '(', '?']

def Opens (cs text : List Char) : Prop := ∀ c ∈ text.head?, c ∈ cs

theorem Opens.mono {ds : List Char} (h : Opens cs text) (hsub : cs ⊆ ds) : Opens ds text :=
  fun c hc => hsub (h c hc)

theorem opens_cons (h : c ∈ cs) : Opens cs (c :: text) := by
  intro d hd
  obtain rfl : c = d := by simpa using hd
  exact h

theorem isWordPart_of_isWordStart (h : isWordStart c = true) : isWordPart c = true := by
  simp only [isWordStart, Bool.or_eq_true, decide_eq_true_eq] at h
  rcases h with h | rfl
  · simp [isWordPart, Char.isAlphanum, h]
  · decide

theorem toNat_of_isAlpha {c : Char} (h : c.isAlpha = true) :
    65 ≤ c.toNat ∧ c.toNat ≤ 90 ∨ 97 ≤ c.toNat ∧ c.toNat ≤ 122 := by
  have hcode : (decide (65 ≤ c.val ∧ c.val ≤ 90) || decide (97 ≤ c.val) && decide (c.val ≤ 122)) = true := h
  simpa [UInt32.le_iff_toNat_le] using hcode

theorem isBlank_of_isWordPart (h : isWordPart c = true) : Text.isBlank c = false := by
  have hn : c.toNat = 45 ∨ 48 ≤ c.toNat ∧ c.toNat ≤ 122 := by
    simp only [isWordPart, Char.isAlphanum, Bool.or_eq_true, decide_eq_true_eq] at h
    rcases h with ((h | h) | rfl) | rfl
    · have := toNat_of_isAlpha h
      omega
    · have : 48 ≤ c.toNat ∧ c.toNat ≤ 57 := Char.isDigit_iff_toNat.mp h
      omega
    · decide
    · decide
  simp only [Text.isBlank, Text.isSpace, Text.spaceTable, Text.Table.holds]
  simp
  omega

theorem isSpace_of_isWordPart (h : isWordPart c = true) : Text.isSpace c = false :=
  (Bool.or_eq_false_iff.mp (isBlank_of_isWordPart h)).1

/-- What holds of a few characters is found out by trying each. -/
theorem forall_mem_of_all {cs : List Char} {p : Char → Prop} [DecidablePred p]
    (h : cs.all (fun c => decide (p c)) = true) : ∀ c ∈ cs, p c :=
  fun c hc => of_decide_eq_true (all_eq_true.mp h c hc)

theorem isWordPart_of_mem_marks {c : Char} (h : c ∈ marks) : isWordPart c = false :=
  forall_mem_of_all (p := fun c => isWordPart c = false) (by decide) c h

theorem isSpace_of_mem_marks {c : Char} (h : c ∈ marks) : Text.isSpace c = false :=
  forall_mem_of_all (p := fun c => Text.isSpace c = false) (by decide) c h

theorem ne_backslash_of_mem_marks (h : c ∈ marks) : c ≠ '\\' := by
  rintro rfl
  exact absurd h (by decide)

/-- The text does not go on with a word or a name. -/
def Halts (text : List Char) : Prop := ∀ c ∈ text.head?, isWordPart c = false ∧ c ≠ '\\'

/-! ## Space -/

theorem skip_cons (h : Text.isSpace c = false) : skip (c :: cs) = c :: cs := by
  simp [skip, h]

theorem skip_space (cs : List Char) : skip (' ' :: cs) = skip cs := by
  simp [skip, show Text.isSpace ' ' = true from by decide]

/-! ## Words -/

variable {w cs rest : List Char} {ws : List (List Char)} {n : Nat}
variable {text : List Char} {c : Char}

theorem isWordPart_of_mem_word (hw : isWord w = true) (hc : c ∈ w) : isWordPart c = true := by
  cases w with
  | nil => cases hc
  | cons d w =>
    rw [isWord, Bool.and_eq_true, all_eq_true] at hw
    rcases mem_cons.mp hc with rfl | hc
    · exact isWordPart_of_isWordStart hw.1
    · exact hw.2 c hc

theorem isWord_of_word (h : word cs = some (w, rest)) : isWord w = true := by
  cases cs with
  | nil => cases h
  | cons c cs =>
    rw [word] at h
    split at h
    · next hc =>
      obtain ⟨rfl, -⟩ : c :: cs.takeWhile isWordPart = w ∧ _ := by simpa using h
      rw [isWord, hc, Bool.true_and, all_eq_true]
      intro d hd
      exact all_eq_true.mp all_takeWhile d hd
    · cases h

theorem word_append (hw : isWord w = true) (hr : ∀ c ∈ rest.head?, isWordPart c = false) :
    word (w ++ rest) = some (w, rest) := by
  cases w with
  | nil => cases hw
  | cons c w =>
    rw [isWord, Bool.and_eq_true, all_eq_true] at hw
    have htake : rest.takeWhile isWordPart = [] := by cases rest <;> simp_all
    have hdrop : rest.dropWhile isWordPart = rest := by cases rest <;> simp_all
    rw [cons_append, word, if_pos hw.1, takeWhile_append_of_pos hw.2,
      dropWhile_append_of_pos hw.2, htake, hdrop, append_nil]

theorem word_eq_none (h : isWordStart c = false) : word (c :: cs) = none := by
  simp [word, h]

/-! ## Names -/

theorem isWordPart_head_slashed (ws : List (List Char)) (hr : Halts rest) :
    ∀ c ∈ (slashed ws ++ rest).head?, isWordPart c = false := by
  intro c hc
  cases ws with
  | nil => exact (hr c hc).1
  | cons w ws =>
    obtain rfl : '\\' = c := by simpa [slashed] using hc
    decide

theorem segments_of_halts (hr : Halts rest) : segments n rest = ([], rest) := by
  cases n with
  | zero => rfl
  | succ n =>
    cases rest with
    | nil => rfl
    | cons c cs =>
      rw [segments]
      intro afterSlash heq
      cases heq
      exact absurd rfl (hr '\\' rfl).2

theorem segments_append (hws : ∀ w ∈ ws, isWord w = true) (hr : Halts rest)
    (hn : ws.length ≤ n) : segments n (slashed ws ++ rest) = (slashed ws, rest) := by
  induction ws generalizing n with
  | nil => exact segments_of_halts hr
  | cons w ws ih =>
    cases n with
    | zero => simp at hn
    | succ n =>
      have hw := word_append (hws w (by simp)) (isWordPart_head_slashed ws hr)
      have htail := ih (fun w hw => hws w (by simp [hw])) (n := n) (by simpa using hn)
      change segments (n + 1) ('\\' :: (w ++ slashed ws) ++ rest) = _
      rw [cons_append, append_assoc, segments]
      simp only [hw, htail]
      rfl

theorem exists_of_segments {s : List Char} (h : segments n cs = (s, rest)) :
    ∃ ws, (∀ w ∈ ws, isWord w = true) ∧ s = slashed ws := by
  induction n generalizing cs s rest with
  | zero =>
    obtain ⟨rfl, -⟩ : [] = s ∧ cs = rest := by simpa [segments] using h
    exact ⟨[], by simp, rfl⟩
  | succ n ih =>
    unfold segments at h
    split at h
    · next afterSlash =>
      split at h
      · cases h
        exact ⟨[], by simp, rfl⟩
      · next w rest' hw =>
        have hseg : segments n rest' = ((segments n rest').1, (segments n rest').2) := rfl
        obtain ⟨ws, hws, hs⟩ := ih hseg
        refine ⟨w :: ws, ?_, ?_⟩
        · rintro v (_ | ⟨_, hv⟩)
          · exact isWord_of_word hw
          · exact hws v hv
        · cases h
          rw [hs]
          rfl
    · cases h
      exact ⟨[], by simp, rfl⟩

/-- A name is a path of words, with or without a backslash in front. -/
def IsName (text : List Char) : Prop :=
  ∃ ws ≠ [], (∀ w ∈ ws, isWord w = true) ∧ (text = slashed ws ∨ '\\' :: text = slashed ws)

theorem isName_of_isWord (hw : isWord w = true) : IsName w :=
  ⟨[w], by simp, by simpa using hw, .inr (by simp [slashed])⟩

theorem isName_of_name {text : String} (h : name cs = some (text, rest)) : IsName text.toList := by
  unfold name at h
  split at h
  · next tail =>
    split at h
    · cases h
    · next s rest' hne hseg =>
      obtain ⟨ws, hws, rfl⟩ := exists_of_segments hseg
      obtain ⟨rfl, -⟩ : String.ofList (slashed ws) = text ∧ _ := by simpa using h
      refine ⟨ws, ?_, hws, .inl (by simp)⟩
      rintro rfl
      exact hne rfl
  · split at h
    · cases h
    · next w rest' hw =>
      obtain ⟨ws, hws, hs⟩ := exists_of_segments (s := (segments rest'.length rest').1) rfl
      cases h
      refine ⟨w :: ws, by simp, ?_, .inr ?_⟩
      · rintro v (_ | ⟨_, hv⟩)
        · exact isWord_of_word hw
        · exact hws v hv
      · rw [String.toList_ofList, hs]
        rfl

theorem length_le_length_slashed (ws : List (List Char)) : ws.length ≤ (slashed ws).length := by
  induction ws with
  | nil => exact Nat.le_refl 0
  | cons w ws ih =>
    change ws.length + 1 ≤ ('\\' :: (w ++ slashed ws)).length
    simp only [length_cons, length_append]
    omega

theorem name_cons (hc : c ≠ '\\') :
    name (c :: cs) = (word (c :: cs)).map fun r =>
      (String.ofList (r.1 ++ (segments r.2.length r.2).1), (segments r.2.length r.2).2) := by
  unfold name
  split
  · next heq =>
    cases heq
    exact absurd rfl hc
  · cases word (c :: cs) <;> rfl

/-- A name is read whole where the text does not go on with it. -/
theorem name_append_of_halts {text : String} (h : IsName text.toList) (hr : Halts rest) :
    name (text.toList ++ rest) = some (text, rest) := by
  obtain ⟨ws, hne, hws, htext⟩ := h
  have hlen := length_le_length_slashed ws
  cases ws with
  | nil => exact absurd rfl hne
  | cons w ws =>
    rcases htext with htext | htext
    · have hseg : segments (text.toList ++ rest).length (text.toList ++ rest) = (text.toList, rest) := by
        rw [htext]
        apply segments_append hws hr
        rw [length_append]
        omega
      have hcons : text.toList = '\\' :: (w ++ slashed ws) := htext
      unfold name
      rw [hseg, hcons]
      simp only [cons_append]
      rw [← hcons, String.ofList_toList]
    · have hw : isWord w = true := hws w (by simp)
      have htail : text.toList = w ++ slashed ws := tail_eq_of_cons_eq htext
      have hword := word_append hw (isWordPart_head_slashed ws hr)
      have hseg : segments (slashed ws ++ rest).length (slashed ws ++ rest) = (slashed ws, rest) := by
        apply segments_append (fun v hv => hws v (by simp [hv])) hr
        rw [length_append]
        have := length_le_length_slashed ws
        omega
      obtain ⟨c, w', rfl⟩ : ∃ c w', w = c :: w' := by
        cases w with
        | nil => cases hw
        | cons c w' => exact ⟨c, w', rfl⟩
      have hc : c ≠ '\\' := by
        rintro rfl
        exact absurd (isWordPart_of_mem_word hw mem_cons_self) (by decide)
      rw [htail, append_assoc, cons_append, name_cons hc, ← cons_append, hword,
        Option.map_some, hseg, ← htail, String.ofList_toList]

/-- Every name begins with a letter, a low line or a backslash. -/
theorem IsName.exists_cons (h : IsName text) :
    ∃ c cs, text = c :: cs ∧ (isWordStart c = true ∨ c = '\\') := by
  obtain ⟨ws, hne, hws, htext⟩ := h
  cases ws with
  | nil => exact absurd rfl hne
  | cons w ws =>
    rcases htext with htext | htext
    · exact ⟨'\\', w ++ slashed ws, htext, .inr rfl⟩
    · cases w with
      | nil => exact absurd (hws [] (by simp)) (by decide)
      | cons c w =>
        have hw := hws (c :: w) (by simp)
        rw [isWord, Bool.and_eq_true] at hw
        exact ⟨c, w ++ slashed ws, tail_eq_of_cons_eq htext, .inl hw.1⟩

theorem IsName.isWord (h : IsName text) (hq : '\\' ∉ text) : Reader.isWord text = true := by
  obtain ⟨ws, hne, hws, htext⟩ := h
  match ws, hne with
  | w :: ws, _ =>
    rcases htext with rfl | htext
    · exact absurd (by simp [slashed]) hq
    · obtain rfl : text = w ++ slashed ws := tail_eq_of_cons_eq htext
      cases ws with
      | nil => simpa [slashed] using hws w (by simp)
      | cons v ws => exact absurd (by simp [slashed]) hq

end Reader

/-! ## Qualified names -/

def QualifiedName.IsProper (q : QualifiedName) : Prop :=
  q.parts ≠ [] ∧ ∀ p ∈ q.parts, Reader.isWord p.toList = true

open Reader

theorem pieces_append {p : Char → Bool} {run w cs : List Char} (hw : ∀ c ∈ w, p c = false) :
    Text.pieces p run (w ++ cs) = Text.pieces p (w.reverse ++ run) cs := by
  induction w generalizing run with
  | nil => rfl
  | cons c w ih =>
    rw [cons_append, Text.pieces, if_neg (by simp [hw c]), ih fun d hd => hw d (by simp [hd])]
    simp

/-- The words of a path are its pieces between backslashes. -/
theorem pieces_slashed {ws : List (List Char)} (hws : ∀ w ∈ ws, isWord w = true) (run : List Char) :
    Text.pieces (· = '\\') run (slashed ws) = if run = [] then ws else run.reverse :: ws := by
  induction ws generalizing run with
  | nil => cases run <;> rfl
  | cons w ws ih =>
    have hw : isWord w = true := hws w (by simp)
    have hne : w ≠ [] := by
      rintro rfl
      cases hw
    have hslash : ∀ c ∈ w, decide (c = '\\') = false := by
      intro c hc
      rw [decide_eq_false_iff_not]
      rintro rfl
      exact absurd (isWordPart_of_mem_word hw hc) (by decide)
    have hrest : Text.pieces (· = '\\') [] (w ++ slashed ws) = w :: ws := by
      rw [pieces_append hslash, ih fun v hv => hws v (by simp [hv])]
      simp [hne]
    change Text.pieces (· = '\\') run ('\\' :: (w ++ slashed ws)) = _
    rw [Text.pieces, if_pos (by rfl), hrest]
    cases run <;> rfl

theorem QualifiedName.toList_toText (q : QualifiedName) :
    q.toText.toList = slashed (q.parts.map String.toList) := by
  rw [toText, String.toList_join, flatMap_map, slashed, flatMap_map]
  simp only [String.toList_append]
  rfl

namespace QualifiedName

variable {q : QualifiedName} {text : String}

theorem isWord_of_mem_map (hq : q.IsProper) : ∀ w ∈ q.parts.map String.toList, isWord w = true := by
  intro w hw
  obtain ⟨p, hp, rfl⟩ := mem_map.mp hw
  exact hq.2 p hp

theorem IsProper.isName (hq : q.IsProper) : IsName q.toText.toList :=
  ⟨q.parts.map String.toList, by simpa using hq.1, isWord_of_mem_map hq, .inl q.toList_toText⟩

theorem IsProper.ofText_toText (hq : q.IsProper) : ofText q.toText = q := by
  rw [ofText, partsOf, toList_toText, pieces_slashed (isWord_of_mem_map hq), if_pos rfl, map_map]
  simp

theorem IsProper.exists_cons (hq : q.IsProper) : ∃ cs, q.toText.toList = '\\' :: cs := by
  obtain ⟨ps⟩ := q
  cases ps with
  | nil => exact absurd rfl hq.1
  | cons p ps =>
    rw [toList_toText]
    exact ⟨_, rfl⟩

/-- What the grammar takes for a name has words for its parts. -/
theorem isProper_ofText (h : IsName text.toList) : (ofText text).IsProper := by
  obtain ⟨ws, hne, hws, htext⟩ := h
  have hpieces : Text.pieces (· = '\\') [] text.toList = ws := by
    rcases htext with htext | htext
    · rw [htext, pieces_slashed hws, if_pos rfl]
    · have hdrop : Text.pieces (· = '\\') [] ('\\' :: text.toList) = Text.pieces (· = '\\') [] text.toList := rfl
      rw [← hdrop, htext, pieces_slashed hws, if_pos rfl]
  have hparts : (ofText text).parts = ws.map String.ofList := by
    rw [ofText, partsOf, hpieces]
  refine ⟨by simpa [hparts] using hne, ?_⟩
  intro p hp
  rw [hparts] at hp
  obtain ⟨w, hw, rfl⟩ := mem_map.mp hp
  simpa using hws w hw

end QualifiedName

end PhpFlow
