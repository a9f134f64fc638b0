import PhpFlow.Proofs.Reading

/-!
# The extent of words, names and labels

What a word, a name, a label or a variable takes from the front of a text, it takes in front of any other
text that does not go on with it.
-/
namespace PhpFlow

open List Option

namespace Reader

variable {α : Type}
variable {c : Char} {x y : List Char} {a : Unit} {l : EntryLabel}

/-- The reader always takes something. -/
def Shrinks (r : Reader α) : Prop := ∀ x a y, r x = some (a, y) → y.length < x.length

theorem length_skip_le (x : List Char) : (skip x).length ≤ x.length :=
  (dropWhile_sublist _).length_le

theorem length_of_char_skip (h : char c (skip x) = some (a, y)) : y.length < x.length := by
  have hle := length_skip_le x
  rw [eq_cons_of_char h, length_cons] at hle
  exact hle

theorem length_of_closing {close : Char} {a b : α} (h : closing close a x = some (b, y)) :
    y.length < x.length := by
  obtain ⟨⟨_, rest⟩, hchar, heq⟩ := map_eq_some_iff.mp h
  cases heq
  exact length_of_char_skip hchar

/-! ## Words and names -/

theorem append_of_word {w : List Char} (h : word x = some (w, y)) : x = w ++ y := by
  cases x with
  | nil => cases h
  | cons c x =>
    rw [word] at h
    split at h
    · cases h
      rw [cons_append, takeWhile_append_dropWhile]
    · cases h

theorem append_of_segments {n : Nat} {s : List Char} (h : segments n x = (s, y)) : x = s ++ y := by
  induction n generalizing x s y with
  | zero =>
    cases h
    rfl
  | succ n ih =>
    unfold segments at h
    split at h
    · split at h
      · cases h
        rfl
      · next w rest hw =>
        have hrest : rest = (segments n rest).1 ++ (segments n rest).2 := ih (y := (segments n rest).2) rfl
        cases h
        rw [append_of_word hw, cons_append, cons_append, append_assoc, ← hrest]
    · cases h
      rfl

theorem append_of_name {n : String} (h : name x = some (n, y)) : x = n.toList ++ y := by
  unfold name at h
  split at h
  · split at h
    · cases h
    · next s rest _ hseg =>
      cases h
      rw [String.toList_ofList]
      exact append_of_segments hseg
  · split at h
    · cases h
    · next w rest hw =>
      have hrest := append_of_segments (n := rest.length) (x := rest) rfl
      cases h
      rw [String.toList_ofList, append_assoc, ← hrest]
      exact append_of_word hw

theorem exists_append_of_keyword {ws : List Char} (h : keyword ws x = some (a, y)) :
    ∃ c, x = c ++ y ∧ c.map Char.toLower = ws := by
  induction ws generalizing x with
  | nil =>
    cases h
    exact ⟨[], rfl, rfl⟩
  | cons w ws ih =>
    cases x with
    | nil => cases h
    | cons c x =>
      rw [keyword] at h
      split at h
      · next hc =>
        obtain ⟨d, rfl, hd⟩ := ih h
        exact ⟨c :: d, rfl, by rw [map_cons, hc, hd]⟩
      · cases h

theorem length_of_isWord {w : List Char} (h : isWord w = true) : 0 < w.length := by
  cases w with
  | nil => cases h
  | cons c w => exact Nat.succ_pos _

theorem shrinks_word : Shrinks word := by
  intro x w y h
  have hpos := length_of_isWord (isWord_of_word h)
  rw [append_of_word h, length_append]
  omega

theorem shrinks_name : Shrinks name := by
  intro x n y h
  obtain ⟨c, cs, hcons, -⟩ := (isName_of_name h).exists_cons
  rw [append_of_name h, hcons, length_append, length_cons]
  omega

theorem length_of_keyword {w : Char} {ws : List Char} (h : keyword (w :: ws) x = some (a, y)) :
    y.length < x.length := by
  obtain ⟨c, rfl, hc⟩ := exists_append_of_keyword h
  have hlength := congrArg List.length hc
  rw [length_map, length_cons] at hlength
  rw [length_append]
  omega

/-! ## Labels -/

/-- A run of characters ends where it ended, if the same character stands there. -/
theorem takeWhile_append_of_head {p : Char → Bool} (h : y.head? = (x.dropWhile p).head?) :
    (x.takeWhile p ++ y).takeWhile p = x.takeWhile p ∧ (x.takeWhile p ++ y).dropWhile p = y := by
  have hall : ∀ c ∈ x.takeWhile p, p c = true := fun c hc => all_eq_true.mp all_takeWhile c hc
  have hend := head?_dropWhile_not p x
  rw [takeWhile_append_of_pos hall, dropWhile_append_of_pos hall]
  rw [← h] at hend
  cases y with
  | nil => simp
  | cons c y =>
    have hc : p c = false := hend
    simp [hc]

def unsigned (negative : Bool) : Reader EntryLabel := fun z =>
  match z.takeWhile Char.isDigit with
  | [] => none
  | ds => some (.number negative ds, z.dropWhile Char.isDigit)

theorem number_of_ne_minus (h : '-' ∉ x.head?) : number x = unsigned false x := by
  unfold number
  split
  next negative z heq =>
  split at heq
  · exact absurd rfl h
  · cases heq
    rfl

theorem exists_append_of_unsigned {negative : Bool} (h : unsigned negative x = some (l, y)) :
    ∃ c, x = c ++ y ∧ c ≠ [] ∧ (∀ d ∈ c, isWordPart d = true) ∧
      ∀ y', y'.head? = y.head? → unsigned negative (c ++ y') = some (l, y') := by
  unfold unsigned at h
  split at h
  · cases h
  · next hne =>
    cases h
    refine ⟨x.takeWhile Char.isDigit, takeWhile_append_dropWhile.symm, hne, ?_, ?_⟩
    · intro d hd
      have hdigit : d.isDigit = true := all_eq_true.mp all_takeWhile d hd
      simp [isWordPart, Char.isAlphanum, hdigit]
    · intro y' hy'
      obtain ⟨htake, hdrop⟩ := takeWhile_append_of_head hy'
      unfold unsigned
      rw [htake, hdrop]
      split
      · next hnil => exact absurd hnil hne
      · rfl

theorem exists_append_of_number (h : number x = some (l, y)) :
    ∃ c, x = c ++ y ∧ c ≠ [] ∧ (∀ d ∈ c, isWordPart d = true) ∧
      ∀ y', y'.head? = y.head? → number (c ++ y') = some (l, y') := by
  by_cases hminus : '-' ∈ x.head?
  · obtain ⟨z, rfl⟩ : ∃ z, x = '-' :: z := by
      cases x with
      | nil => cases hminus
      | cons c z => exact ⟨z, by rw [mem_some_iff.mp hminus]⟩
    obtain ⟨c, rfl, -, hpart, hc⟩ := exists_append_of_unsigned h
    have hminus : isWordPart '-' = true := by decide
    exact ⟨'-' :: c, rfl, by simp, by simpa [hminus] using hpart, hc⟩
  · rw [number_of_ne_minus hminus] at h
    obtain ⟨c, rfl, hne, hpart, hc⟩ := exists_append_of_unsigned h
    cases c with
    | nil => exact absurd rfl hne
    | cons e c =>
      refine ⟨e :: c, rfl, hne, hpart, fun y' hy' => ?_⟩
      have hne : '-' ∉ ((e :: c) ++ y').head? := hminus
      rw [number_of_ne_minus hne]
      exact hc y' hy'

theorem number_eq_none (hc : isWordStart c = true) : number (c :: x) = none := by
  have hminus : c ≠ '-' := by
    rintro rfl
    cases hc
  have hdigit : c.isDigit = false := by
    rw [Bool.eq_false_iff]
    intro hd
    have hcode : 48 ≤ c.toNat ∧ c.toNat ≤ 57 := Char.isDigit_iff_toNat.mp hd
    simp only [isWordStart, Bool.or_eq_true, decide_eq_true_eq] at hc
    rcases hc with hc | rfl
    · have := toNat_of_isAlpha hc
      omega
    · simp at hcode
  unfold number
  split
  · next heq =>
    split at heq
    · next hcons =>
      cases hcons
      exact absurd rfl hminus
    · cases heq
      simp [hdigit]

/-- What a label takes, it takes wherever the same character follows. -/
theorem exists_append_of_label (h : label x = some (l, y)) :
    ∃ c, x = c ++ y ∧ c ≠ [] ∧ (∀ d ∈ c, isWordPart d = true) ∧
      ∀ y', y'.head? = y.head? → label (c ++ y') = some (l, y') := by
  unfold label at h
  split at h
  · next r hr =>
    cases h
    obtain ⟨c, hx, hne, hpart, hc⟩ := exists_append_of_number hr
    refine ⟨c, hx, hne, hpart, fun y' hy' => ?_⟩
    rw [label, hc y' hy']
  · obtain ⟨⟨w, rest⟩, hw, heq⟩ := map_eq_some_iff.mp h
    cases heq
    cases x with
    | nil => cases hw
    | cons c x =>
      rw [word] at hw
      split at hw
      · next hc =>
        cases hw
        refine ⟨c :: x.takeWhile isWordPart, ?_, by simp, ?_, fun y' hy' => ?_⟩
        · rw [cons_append, takeWhile_append_dropWhile]
        · rintro d (_ | ⟨_, hd⟩)
          · exact isWordPart_of_isWordStart hc
          · exact all_eq_true.mp all_takeWhile d hd
        · obtain ⟨htake, hdrop⟩ := takeWhile_append_of_head hy'
          rw [label, cons_append, number_eq_none hc, word, if_pos hc, htake, hdrop]
          rfl
      · cases hw

/-! ## Space -/

theorem exists_space (x : List Char) : ∃ sp, (∀ c ∈ sp, Text.isSpace c = true) ∧ x = sp ++ skip x :=
  ⟨x.takeWhile Text.isSpace, fun c hc => all_eq_true.mp all_takeWhile c hc,
    takeWhile_append_dropWhile.symm⟩

theorem isSpace_head_skip (h : c ∈ (skip x).head?) : Text.isSpace c = false := by
  have hend := head?_dropWhile_not Text.isSpace x
  have hc : (List.dropWhile Text.isSpace x).head? = some c := h
  rw [hc] at hend
  exact hend

theorem skip_skip (x : List Char) : skip (skip x) = skip x := by
  cases hx : skip x with
  | nil => rfl
  | cons c z => exact skip_cons (isSpace_head_skip (x := x) (by rw [hx]; rfl))

theorem skip_space_append {sp z : List Char} (hsp : ∀ d ∈ sp, Text.isSpace d = true)
    (hc : Text.isSpace c = false) : skip (sp ++ c :: z) = c :: z := by
  rw [skip_blank hsp, skip_cons hc]

def colon : Reader Unit := fun x =>
  match skip x with
  | ':' :: ':' :: _ => none
  | ':' :: y => some ((), y)
  | _ => none

theorem colon_eq_some_iff : colon x = some (a, y) ↔ skip x = ':' :: y ∧ ':' ∉ y.head? := by
  unfold colon
  split
  · next z heq =>
    rw [heq]
    constructor
    · rintro ⟨⟩
    · rintro ⟨⟨⟩, hne⟩
      exact absurd rfl hne
  · next z hne heq =>
    rw [heq]
    constructor
    · rintro ⟨⟩
      refine ⟨rfl, fun hmem => ?_⟩
      cases y with
      | nil => cases hmem
      | cons c y =>
        obtain rfl : c = ':' := mem_some_iff.mp hmem
        exact hne y rfl
    · rintro ⟨⟨⟩, -⟩
      rfl
  · next hcolon =>
    constructor
    · rintro ⟨⟩
    · rintro ⟨heq, -⟩
      exact absurd heq (hcolon y)

def questionMark : List Char → Bool × List Char
  | '?' :: z => (true, z)
  | z => (false, z)

theorem questionMark_of_ne {z : List Char} (h : '?' ∉ z.head?) : questionMark z = (false, z) := by
  unfold questionMark
  split
  · exact absurd rfl h
  · rfl

def afterLabel (l : EntryLabel) : Reader (EntryLabel × Bool) := fun x =>
  (colon (questionMark (skip x)).2).map fun r => ((l, (questionMark (skip x)).1), r.2)

theorem entryLabel_eq (x : List Char) :
    entryLabel x = (label x).bind fun r => afterLabel r.1 r.2 := by
  unfold entryLabel
  cases label x with
  | none => rfl
  | some r =>
    obtain ⟨l, rest⟩ := r
    show _ = afterLabel l rest
    unfold afterLabel
    change (match skip (questionMark (skip rest)).2 with
      | ':' :: ':' :: _ => none
      | ':' :: y => some ((l, (questionMark (skip rest)).1), y)
      | _ => none) = _
    unfold colon
    split <;> rfl

/-- What stands after a label is taken wherever no second colon follows. -/
theorem exists_append_of_afterLabel {lo : EntryLabel × Bool} (h : afterLabel l x = some (lo, y)) :
    ∃ c, x = c ++ ':' :: y ∧ (∀ d ∈ c, Text.isSpace d = true ∨ d = '?') ∧ ':' ∉ y.head? ∧
      ∀ y', ':' ∉ y'.head? → afterLabel l (c ++ ':' :: y') = some (lo, y') := by
  obtain ⟨⟨_, rest⟩, hcolon, heq⟩ := map_eq_some_iff.mp h
  cases heq
  obtain ⟨hskip, hne⟩ := colon_eq_some_iff.mp hcolon
  obtain ⟨sp, hsp, hx⟩ := exists_space x
  by_cases hmark : '?' ∈ (skip x).head?
  · obtain ⟨z, hz⟩ := eq_cons_of_mem_head hmark
    obtain ⟨sp', hsp', hz'⟩ := exists_space z
    rw [hz] at hx hskip
    have hcolon : skip z = ':' :: rest := hskip
    rw [hcolon] at hz'
    refine ⟨sp ++ '?' :: sp', by simp [hx, hz'], ?_, hne, fun y' hy' => ?_⟩
    · intro d hd
      rcases mem_append.mp hd with hd | hd
      · exact .inl (hsp d hd)
      · rcases mem_cons.mp hd with rfl | hd
        · exact .inr rfl
        · exact .inl (hsp' d hd)
    · have htext : sp ++ '?' :: sp' ++ ':' :: y' = sp ++ '?' :: (sp' ++ ':' :: y') := by simp
      have hagain : colon (sp' ++ ':' :: y') = some ((), y') :=
        colon_eq_some_iff.mpr ⟨skip_space_append hsp' (by decide), hy'⟩
      rw [htext, afterLabel, skip_space_append hsp (by decide), hz]
      simp [questionMark, hagain]
  · rw [questionMark_of_ne hmark, skip_skip] at hskip
    refine ⟨sp, by rw [hx, hskip], fun d hd => .inl (hsp d hd), hne, fun y' hy' => ?_⟩
    have hagain : colon (':' :: y') = some ((), y') :=
      colon_eq_some_iff.mpr ⟨skip_cons (by decide), hy'⟩
    rw [afterLabel, skip_space_append hsp (by decide), questionMark_of_ne hmark,
      questionMark_of_ne (by simp)]
    simp [hagain]

def isLabelPart (c : Char) : Bool := isWordPart c || Text.isSpace c || c = '?'

/-- The label of an entry is taken wherever no second colon follows. -/
theorem exists_append_of_entryLabel {lo : EntryLabel × Bool} (h : entryLabel x = some (lo, y)) :
    ∃ c, x = c ++ ':' :: y ∧ (∀ d ∈ c, isLabelPart d = true) ∧ ':' ∉ y.head? ∧
      ∀ y', ':' ∉ y'.head? → entryLabel (c ++ ':' :: y') = some (lo, y') := by
  rw [entryLabel_eq] at h
  obtain ⟨⟨l, rest⟩, hlabel, hafter⟩ := bind_eq_some_iff.mp h
  obtain ⟨c, rfl, hne, hpart, hc⟩ := exists_append_of_label hlabel
  obtain ⟨d, rfl, hd, hy, hafter'⟩ := exists_append_of_afterLabel hafter
  refine ⟨c ++ d, by simp, ?_, hy, fun y' hy' => ?_⟩
  · intro e he
    rcases mem_append.mp he with he | he
    · simp [isLabelPart, hpart e he]
    · rcases hd e he with he | rfl
      · simp [isLabelPart, he]
      · rfl
  · have hhead : (d ++ ':' :: y').head? = (d ++ ':' :: y).head? := by cases d <;> rfl
    rw [entryLabel_eq, append_assoc, hc _ hhead]
    exact hafter' y' hy'

theorem shrinks_entryLabel : Shrinks entryLabel := by
  intro x lo y h
  obtain ⟨c, rfl, -⟩ := exists_append_of_entryLabel h
  rw [length_append, length_cons]
  omega

/-! ## Variables -/

def isVariablePart (c : Char) : Bool := c.isAlphanum || c = '_'

theorem isWordPart_of_isVariablePart (h : isVariablePart c = true) : isWordPart c = true := by
  simp only [isVariablePart, Bool.or_eq_true] at h
  simp only [isWordPart, Bool.or_eq_true]
  exact .inl h

def dropAmpersand (x : List Char) : List Char :=
  match x with
  | '&' :: z => z
  | _ => x

def dropDots (x : List Char) : List Char :=
  match x with
  | '.' :: '.' :: '.' :: z => z
  | _ => x

def dollarName (x : List Char) : Option (List Char) :=
  match x with
  | '$' :: c :: z => if isWordStart c then some (z.dropWhile isVariablePart) else none
  | _ => none

theorem argumentName_eq (x : List Char) : argumentName x = dollarName (dropDots (dropAmpersand x)) := rfl

theorem argumentName_eq_none (h : ∀ d ∈ x.head?, d ∉ variableMarks) : argumentName x = none := by
  cases x with
  | nil => rfl
  | cons d x =>
    have hd : d ∉ variableMarks := h d rfl
    simp only [variableMarks, mem_cons, not_mem_nil, or_false, not_or] at hd
    rw [argumentName_eq]
    simp [dropAmpersand, dropDots, dollarName, hd.1, hd.2.1, hd.2.2]

theorem exists_of_dropAmpersand (x : List Char) :
    ∃ a, x = a ++ dropAmpersand x ∧ (a = [] ∨ a = ['&']) := by
  unfold dropAmpersand
  split
  · exact ⟨['&'], rfl, .inr rfl⟩
  · exact ⟨[], rfl, .inl rfl⟩

theorem exists_of_dropDots (x : List Char) :
    ∃ a, x = a ++ dropDots x ∧ (a = [] ∨ a = ['.', '.', '.']) := by
  unfold dropDots
  split
  · exact ⟨['.', '.', '.'], rfl, .inr rfl⟩
  · exact ⟨[], rfl, .inl rfl⟩

theorem exists_of_dollarName (h : dollarName x = some y) :
    ∃ c run, x = '$' :: c :: (run ++ y) ∧ isWordStart c = true ∧ (∀ d ∈ run, isVariablePart d = true) := by
  unfold dollarName at h
  split at h
  · next c z =>
    split at h
    · next hc =>
      cases h
      exact ⟨c, z.takeWhile isVariablePart, by rw [takeWhile_append_dropWhile], hc,
        fun d hd => all_eq_true.mp all_takeWhile d hd⟩
    · cases h
  · cases h

theorem dollarName_append {run : List Char} (hc : isWordStart c = true)
    (hrun : ∀ d ∈ run, isVariablePart d = true) (hy : ∀ d ∈ y.head?, isVariablePart d = false) :
    dollarName ('$' :: c :: (run ++ y)) = some y := by
  rw [dollarName, if_pos hc, dropWhile_append_of_pos hrun]
  cases y with
  | nil => rfl
  | cons d y => rw [dropWhile_cons_of_neg (by simp [hy d rfl])]

/-- The variable after an argument is taken wherever no further character of its name follows. -/
theorem exists_append_of_argumentName (h : argumentName x = some y) :
    ∃ c v last, x = c ++ y ∧ c = v ++ [last] ∧ isWordPart last = true ∧
      (∀ d ∈ c.head?, d ∈ ['&', '.', '$']) ∧
      ∀ y', (∀ d ∈ y'.head?, isVariablePart d = false) → argumentName (c ++ y') = some y' := by
  rw [argumentName_eq] at h
  obtain ⟨c, run, hz, hc, hrun⟩ := exists_of_dollarName h
  obtain ⟨amp, hamp, hamps⟩ := exists_of_dropAmpersand x
  obtain ⟨dots, hdots, hdotss⟩ := exists_of_dropDots (dropAmpersand x)
  rw [hz] at hdots
  rw [hdots] at hamp
  have hlast : ∃ v last, '$' :: c :: run = v ++ [last] ∧ isWordPart last = true := by
    have hall : ∀ d ∈ c :: run, isWordPart d = true := by
      rintro d (_ | ⟨_, hd⟩)
      · exact isWordPart_of_isWordStart hc
      · exact isWordPart_of_isVariablePart (hrun d hd)
    have hne : c :: run ≠ [] := by simp
    exact ⟨'$' :: (c :: run).dropLast, (c :: run).getLast hne, by simp [dropLast_concat_getLast hne],
      hall _ (getLast_mem hne)⟩
  obtain ⟨v, last, hv, hpart⟩ := hlast
  refine ⟨amp ++ (dots ++ '$' :: c :: run), amp ++ (dots ++ v), last, by simp [hamp], by simp [hv], hpart, ?_, ?_⟩
  · rcases hamps with rfl | rfl <;> rcases hdotss with rfl | rfl <;> simp
  · intro y' hy'
    have hname := dollarName_append hc hrun hy'
    rcases hamps with rfl | rfl <;> rcases hdotss with rfl | rfl <;>
      simpa [argumentName_eq, dropAmpersand, dropDots] using hname

theorem length_of_argumentName (h : argumentName x = some y) : y.length ≤ x.length := by
  obtain ⟨c, v, last, rfl, -⟩ := exists_append_of_argumentName h
  rw [length_append]
  omega

end Reader

end PhpFlow
