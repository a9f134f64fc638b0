import PhpFlow.Proofs.Lexemes

/-!
# Reading heads and lists

What form a head of a type has is told by the mark that stands after its name. A reader that takes a part of
a text takes it in front of all that does not go on with it, with or without space in between; so do the
readers of lists and of heads if the readers of their parts do.
-/
namespace PhpFlow

open List Option

namespace Reader

variable {α β : Type}
variable {c close m : Char} {cs after : List Char}

def Begins (text : List Char) : Prop := ∃ c cs, text = c :: cs ∧ Text.isSpace c = false

/-- In front of every text that begins, space aside, with one of `ds` or is empty, the reader takes `text`. -/
def Takes (ds text : List Char) (r : Reader α) (a : α) : Prop :=
  ∀ y, Opens ds (skip y) → r (text ++ y) = some (a, y)

def ends : List Char := [',', '|', '>', '\x7d', ')']

def stops : List Char := [',', '>', '\x7d', ')']

def variableMarks : List Char := ['&', '.', '$']

def separatorControls : List Char := ['\x1c', '\x1d', '\x1e', '\x1f']

def alternativeEnds : List Char := ends ++ variableMarks ++ separatorControls

def headEnds : List Char := '[' :: alternativeEnds

def unionEnds : List Char := stops ++ variableMarks ++ separatorControls

variable {r part : Reader α} {a : α} {ds ds' text rest x y z : List Char} {sep : Char}

theorem Takes.mono (h : Takes ds text r a) (hsub : ds' ⊆ ds) : Takes ds' text r a :=
  fun y hy => h y (hy.mono hsub)

theorem Begins.skip_append (h : Begins text) (rest : List Char) : skip (text ++ rest) = text ++ rest := by
  obtain ⟨c, cs, rfl, hc⟩ := h
  exact skip_cons hc

theorem Begins.of_isWordPart (h : isWordPart c = true) : Begins (c :: cs) :=
  ⟨c, cs, rfl, isSpace_of_isWordPart h⟩

theorem exists_cons_of_isWord {w : List Char} (h : isWord w = true) :
    ∃ c cs, w = c :: cs ∧ isWordStart c = true := by
  cases w with
  | nil => cases h
  | cons c cs =>
    rw [isWord, Bool.and_eq_true] at h
    exact ⟨c, cs, rfl, h.1⟩

theorem Begins.of_isWord {w : List Char} (h : isWord w = true) : Begins w := by
  obtain ⟨c, cs, rfl, hc⟩ := exists_cons_of_isWord h
  exact .of_isWordPart (isWordPart_of_isWordStart hc)

theorem skip_blank (h : ∀ c ∈ blank, Text.isSpace c = true) (cs : List Char) : skip (blank ++ cs) = skip cs :=
  dropWhile_append_of_pos h

theorem char_eq_none (h : c ∉ cs.head?) : char c cs = none := by
  cases cs with
  | nil => rfl
  | cons d cs =>
    have hne : c ≠ d := by
      rintro rfl
      exact h rfl
    rw [char, if_neg hne]

theorem char_self (c : Char) (cs : List Char) : char c (c :: cs) = some ((), cs) := by
  rw [char, if_pos rfl]

theorem eq_cons_of_char {a : Unit} (h : char c x = some (a, y)) : x = c :: y := by
  cases x with
  | nil => cases h
  | cons d x =>
    rw [char] at h
    split at h
    · next hcd =>
      cases h
      rw [hcd]
    · cases h

theorem eq_cons_of_mem_head (h : c ∈ x.head?) : ∃ z, x = c :: z := by
  cases x with
  | nil => cases h
  | cons d z => exact ⟨z, by rw [mem_some_iff.mp h]⟩

theorem closing_of_skip {close : Char} (a : α) (h : skip x = close :: y) :
    closing close a x = some (a, y) := by
  rw [closing, h, char_self]
  rfl

theorem isSpace_of_isWordPart_false {d : Char} (h : Text.isSpace d = true) : isWordPart d = false := by
  cases hd : isWordPart d with
  | false => rfl
  | true =>
    rw [isSpace_of_isWordPart hd] at h
    cases h

theorem isSpace_or_mem_of_opens_skip (h : Opens ds (skip y)) :
    ∀ d ∈ y.head?, Text.isSpace d = true ∨ d ∈ ds := by
  intro d hd
  obtain ⟨z, rfl⟩ := eq_cons_of_mem_head hd
  cases hspace : Text.isSpace d with
  | true => exact .inl rfl
  | false =>
    rw [skip_cons hspace] at h
    exact .inr (h d rfl)

theorem halts_of_opens_skip (hds : ∀ d ∈ ds, isWordPart d = false ∧ d ≠ '\\') (h : Opens ds (skip y)) :
    Halts y := by
  intro d hd
  rcases isSpace_or_mem_of_opens_skip h d hd with hspace | hmem
  · refine ⟨isSpace_of_isWordPart_false hspace, ?_⟩
    rintro rfl
    exact absurd hspace (by decide)
  · exact hds d hmem

/-! ## Lists -/

theorem more_eq_nil (m : Nat) (h : ∀ z, skip y = sep :: z → part (skip z) = none) :
    more sep part m y = ([], y) := by
  cases m with
  | zero => rfl
  | succ m =>
    rw [more]
    split
    · rfl
    · next after hchar => rw [h after (eq_cons_of_char hchar)]

theorem more_of_opens (n : Nat) (hsep : sep ∉ ds) (h : Opens ds (skip y)) : more sep part n y = ([], y) :=
  more_eq_nil n fun z hz => absurd (h sep (by rw [hz]; rfl)) hsep

variable {xs : List β} {write : β → List Char} {value : β → α} {blank : List Char}

def furtherText (sep : Char) (blank : List Char) (write : β → List Char) (xs : List β) : List Char :=
  xs.flatMap fun x => sep :: (blank ++ write x)

theorem length_le_length_furtherText (sep : Char) (blank : List Char) (write : β → List Char)
    (xs : List β) : xs.length ≤ (furtherText sep blank write xs).length := by
  induction xs with
  | nil => exact Nat.le_refl 0
  | cons x xs ih =>
    simp only [furtherText, flatMap_cons, length_append, length_cons] at ih ⊢
    omega

/-- Further parts are read one after the other, and what precedes them does not go on with a part before. -/
theorem more_append {n : Nat} (hmark : Text.isSpace sep = false) (hsep : sep ∉ ds)
    (hblank : ∀ c ∈ blank, Text.isSpace c = true) (hbegins : ∀ x ∈ xs, Begins (write x))
    (htakes : ∀ x ∈ xs, Takes (sep :: ds) (write x) part (value x)) (h : Opens ds (skip y))
    (hn : xs.length ≤ n) : Opens (sep :: ds) (skip (furtherText sep blank write xs ++ y)) ∧
      more sep part n (furtherText sep blank write xs ++ y) = (xs.map value, y) := by
  induction xs generalizing n with
  | nil => exact ⟨h.mono (subset_cons_self _ _), more_of_opens n hsep h⟩
  | cons x xs ih =>
    cases n with
    | zero => simp at hn
    | succ n =>
      obtain ⟨hopens, htail⟩ := ih (fun y hy => hbegins y (by simp [hy])) (fun y hy => htakes y (by simp [hy]))
        (n := n) (by simpa using hn)
      have htext : furtherText sep blank write (x :: xs) ++ y =
          sep :: (blank ++ (write x ++ (furtherText sep blank write xs ++ y))) := by
        simp [furtherText]
      rw [htext, skip_cons hmark, more, skip_cons hmark, char_self]
      refine ⟨opens_cons mem_cons_self, ?_⟩
      simp only [skip_blank hblank, (hbegins x (by simp)).skip_append, htakes x (by simp) _ hopens, htail,
        map_cons]

theorem intercalate_cons (x : β) (xs : List β) :
    List.intercalate (sep :: blank) ((x :: xs).map write) = write x ++ furtherText sep blank write xs := by
  induction xs generalizing x with
  | nil => simp [furtherText]
  | cons y ys ih =>
    rw [map_cons, map_cons, intercalate_cons_cons, ← map_cons, ih]
    simp [furtherText]

theorem Takes.separated (hmark : Text.isSpace sep = false) (hsep : sep ∉ ds)
    (hblank : blank.all Text.isSpace = true) (hne : xs ≠ []) (hbegins : ∀ x ∈ xs, Begins (write x))
    (htakes : ∀ x ∈ xs, Takes (sep :: ds) (write x) part (value x)) :
    Takes ds (List.intercalate (sep :: blank) (xs.map write)) (separated sep part) (xs.map value) := by
  intro y h
  cases xs with
  | nil => exact absurd rfl hne
  | cons x xs =>
    have hlength : xs.length ≤ (furtherText sep blank write xs ++ y).length := by
      have := length_le_length_furtherText sep blank write xs
      rw [length_append]
      omega
    obtain ⟨hopens, hmore⟩ := more_append hmark hsep (all_eq_true.mp hblank)
      (fun y hy => hbegins y (by simp [hy])) (fun y hy => htakes y (by simp [hy])) h hlength
    rw [intercalate_cons, append_assoc, Reader.separated, htakes x (by simp) _ hopens]
    simp only [hmore, map_cons]

/-- A list of parts with commas between them, which may be empty, and what follows it. -/
def listed (part : Reader α) (x : List Char) : List α × List Char :=
  (separated ',' part (skip x)).getD ([], skip x)

theorem listed_append {as : List α} (h : Takes [close] text (separated ',' part) as) (hbegins : Begins text)
    (hclose : Text.isSpace close = false) (y : List Char) :
    listed part (text ++ close :: y) = (as, close :: y) := by
  rw [listed, hbegins.skip_append, h]
  · rfl
  · rw [skip_cons hclose]
    exact opens_cons mem_cons_self

theorem listed_of_none (h : part (skip x) = none) : listed part x = ([], skip x) := by
  rw [listed, separated, h]
  rfl

def lastComma (x : List Char) : List Char :=
  match skip x with
  | ',' :: rest => rest
  | rest => rest

/-! ## Names -/

/-- Names are made of the characters of words and backslashes. -/
theorem IsName.mem (h : IsName text) (hc : c ∈ text) : isWordPart c = true ∨ c = '\\' := by
  obtain ⟨ws, -, hws, htext⟩ := h
  have hmem : c ∈ slashed ws := by
    rcases htext with rfl | htext
    · exact hc
    · rw [← htext]
      exact mem_cons_of_mem _ hc
  obtain ⟨w, hw, hcw⟩ := mem_flatMap.mp hmem
  rcases mem_cons.mp hcw with rfl | hcw
  · exact .inr rfl
  · exact .inl (isWordPart_of_mem_word (hws w hw) hcw)

theorem isWordStart_of_toLower {w : Char} (hw : isWordStart w = true) (h : c.toLower = w) :
    isWordStart c = true := by
  unfold Char.toLower at h
  split at h
  · next hc =>
    have hupper : c.isUpper = true := decide_eq_true hc
    have halpha : c.isAlpha = true := Bool.or_eq_true_iff.mpr (.inl hupper)
    simp [isWordStart, halpha]
  · exact h ▸ hw

/-- A keyword takes only a part of a name that is written whole. -/
theorem exists_of_keyword {ws name left : List Char} {x : Unit} (hws : ∀ w ∈ ws, isWordStart w = true)
    (hafter : Halts after) (h : keyword ws (name ++ after) = some (x, left)) :
    ∃ before last, name = before ++ last ∧ left = last ++ after := by
  induction ws generalizing name with
  | nil =>
    cases h
    exact ⟨[], name, rfl, rfl⟩
  | cons w ws ih =>
    cases name with
    | nil =>
      cases after with
      | nil => cases h
      | cons c after =>
        rw [nil_append, keyword] at h
        split at h
        · next heq =>
          have hpart := isWordPart_of_isWordStart (isWordStart_of_toLower (hws w (by simp)) heq)
          rw [(hafter c rfl).1] at hpart
          cases hpart
        · cases h
    | cons c name =>
      rw [cons_append, keyword] at h
      split at h
      · obtain ⟨before, last, rfl, rfl⟩ := ih (fun v hv => hws v (by simp [hv])) h
        exact ⟨c :: before, last, rfl, rfl⟩
      · cases h

/-- A mark that does not stand after a name is not found after a keyword either. -/
theorem char_skip_of_keyword {ws name left : List Char} {x : Unit} {m : Char}
    (hws : ∀ w ∈ ws, isWordStart w = true) (hname : IsName name) (hafter : Halts after) (hm : m ∈ marks)
    (hne : m ∉ (skip after).head?) (h : keyword ws (name ++ after) = some (x, left)) :
    char m (skip left) = none := by
  obtain ⟨before, last, rfl, rfl⟩ := exists_of_keyword hws hafter h
  cases last with
  | nil => exact char_eq_none hne
  | cons c last =>
    have hc := hname.mem (c := c) (by simp)
    have hspace : Text.isSpace c = false := by
      rcases hc with hc | rfl
      · exact isSpace_of_isWordPart hc
      · decide
    rw [cons_append, skip_cons hspace]
    apply char_eq_none
    intro hmem
    obtain rfl : c = m := by simpa using hmem
    rcases hc with hc | rfl
    · rw [isWordPart_of_mem_marks hm] at hc
      cases hc
    · exact ne_backslash_of_mem_marks hm rfl

/-! ## Heads

What form a head has is told by the mark that stands after its name, with or without space before it. -/

variable {alt : Reader TypeAlternative} {u : Reader TypeExpr} {n : String}

theorem constant_eq_none (hn : IsName text) (hafter : Halts after)
    (hcolon : ∀ left, skip after ≠ ':' :: ':' :: left) : constant (text ++ after) = none := by
  have hn' : IsName (String.ofList text).toList := by rwa [String.toList_ofList]
  have hname := name_append_of_halts hn' hafter
  rw [String.toList_ofList] at hname
  rw [constant, hname]
  dsimp only
  split
  · next left heq => exact absurd heq (hcolon left)
  · rfl

theorem shape_eq_none (hn : IsName text) (hafter : Halts after) (hbrace : '\x7b' ∉ (skip after).head?) :
    shape u (text ++ after) = none := by
  rw [shape]
  split
  · rfl
  · next left hkey =>
    rw [char_skip_of_keyword (forall_mem_of_all (by decide)) hn hafter (by decide) hbrace hkey]

theorem callable_eq_none (hn : IsName text) (hafter : Halts after) (hparen : '(' ∉ (skip after).head?) :
    callable alt (text ++ after) = none := by
  rw [callable]
  split
  · rfl
  · next left hkey =>
    rw [char_skip_of_keyword (forall_mem_of_all (by decide)) hn hafter (by decide) hparen hkey]

theorem IsName.ne_paren (h : IsName (c :: cs)) : c ≠ '(' := by
  rintro rfl
  exact (h.mem mem_cons_self).elim (by decide) (by decide)

theorem tuple_eq_none (hn : IsName text) : tuple u (text ++ after) = none := by
  obtain ⟨c, cs, rfl, -⟩ := hn.exists_cons
  unfold tuple
  split
  · next heq =>
    cases heq
    exact absurd rfl hn.ne_paren
  · rfl

theorem generic_eq_none (hn : IsName n.toList) (hafter : Halts after)
    (hangle : '<' ∉ (skip after).head?) : generic u (n.toList ++ after) = none := by
  rw [generic, name_append_of_halts hn hafter]
  simp only [char_eq_none hangle]

/-! What stands before a mark or a part may be space, as `b`, `d` and `e` are in the following. -/

variable {b d e n' : List Char} {hd : TypeHead}

theorem isWordPart_of_mem_headEnds : ∀ d ∈ headEnds, isWordPart d = false ∧ d ≠ '\\' :=
  forall_mem_of_all (by decide)

theorem halts_space_cons (hb : ∀ y, skip (b ++ m :: y) = m :: y) (hm : m ∈ marks) :
    Halts (b ++ m :: z) := by
  have hopens : Opens marks (skip (b ++ m :: z)) := by
    rw [hb]
    exact opens_cons hm
  exact halts_of_opens_skip (fun d hd => ⟨isWordPart_of_mem_marks hd, ne_backslash_of_mem_marks hd⟩) hopens

theorem takes_name (hn : IsName n.toList) : Takes headEnds n.toList (head alt) (.name n) := by
  intro y hy
  have hhalts := halts_of_opens_skip isWordPart_of_mem_headEnds hy
  have hne (m : Char) (hm : m ∉ headEnds) : m ∉ (skip y).head? := fun hmem => hm (hy m hmem)
  have hcolon (left : List Char) : skip y ≠ ':' :: ':' :: left := by
    intro heq
    exact hne ':' (by decide) (by rw [heq]; rfl)
  rw [head, constant_eq_none hn hhalts hcolon, shape_eq_none hn hhalts (hne _ (by decide)),
    callable_eq_none hn hhalts (hne _ (by decide)), tuple_eq_none hn,
    generic_eq_none hn hhalts (hne _ (by decide)), name_append_of_halts hn hhalts]
  rfl

theorem takes_constant {w : List Char} (hn : IsName n.toList) (hw : isWord w = true)
    (hb : ∀ y, skip (b ++ ':' :: y) = ':' :: y) (hd : ∀ y, skip (d ++ (w ++ y)) = w ++ y) :
    Takes headEnds (n.toList ++ (b ++ ':' :: ':' :: (d ++ w))) (head alt) (.constant n (String.ofList w)) := by
  intro y hy
  have hhalts := halts_of_opens_skip isWordPart_of_mem_headEnds hy
  simp only [append_assoc, cons_append]
  rw [head, constant, name_append_of_halts hn (halts_space_cons hb (by decide))]
  simp only [hb, hd, word_append hw fun d hd => (hhalts d hd).1, map_some]
  rfl

theorem head_of_generic {n : String} {after left rest : List Char} (hn : IsName n.toList)
    (hafter : Halts after) (hangle : skip after = '<' :: left)
    (h : generic (union alt) (n.toList ++ after) = some (hd, rest)) :
    head alt (n.toList ++ after) = some (hd, rest) := by
  rw [head, constant_eq_none hn hafter (by simp [hangle]), shape_eq_none hn hafter (by simp [hangle]),
    callable_eq_none hn hafter (by simp [hangle]), tuple_eq_none hn, h]
  rfl

theorem takes_generic {args : List TypeExpr} (hn : IsName n.toList) (hb : ∀ y, skip (b ++ '<' :: y) = '<' :: y)
    (hd : ∀ y, skip (d ++ (text ++ y)) = text ++ y) (he : ∀ y, skip (e ++ '>' :: y) = '>' :: y)
    (hne : text ≠ []) (hstar : '*' ∉ text.head?) (hargs : Takes ['>'] text (separated ',' (union alt)) args) :
    Takes ds (n.toList ++ (b ++ '<' :: (d ++ (text ++ (e ++ ['>']))))) (head alt) (.generic n args) := by
  intro y _
  have hhalts : Halts (b ++ '<' :: (d ++ (text ++ (e ++ '>' :: y)))) := halts_space_cons hb (by decide)
  have hopens : Opens ['>'] (skip (e ++ '>' :: y)) := by
    rw [he]
    exact opens_cons mem_cons_self
  simp only [append_assoc, cons_append, nil_append]
  apply head_of_generic hn hhalts (hb _)
  rw [generic, name_append_of_halts hn hhalts]
  simp only [hb, char_self, hd]
  split
  · next left heq =>
    obtain ⟨c, cs, rfl⟩ := exists_cons_of_ne_nil hne
    cases heq
    exact absurd rfl hstar
  · rw [hargs _ hopens]
    exact closing_of_skip _ (he y)

theorem shape_eq (u : Reader TypeExpr) (x : List Char) :
    shape u x = (keyword ['a', 'r', 'r', 'a', 'y'] x).bind fun r =>
      (char '\x7b' (skip r.2)).bind fun r =>
      closing '\x7d' (.shape (listed (entry u) r.2).1) (lastComma (listed (entry u) r.2).2) := by
  rw [shape]
  cases keyword ['a', 'r', 'r', 'a', 'y'] x with
  | none => rfl
  | some r =>
    simp only [bind_some]
    cases char '\x7b' (skip r.2) <;> rfl

theorem head_of_shape (hn : IsName n') (hkey : ∀ y, keyword ['a', 'r', 'r', 'a', 'y'] (n' ++ y) = some ((), y))
    (hb : ∀ y, skip (b ++ '\x7b' :: y) = '\x7b' :: y)
    (hclose : skip (lastComma (listed (entry (union alt)) z).2) = '\x7d' :: y) :
    head alt (n' ++ (b ++ '\x7b' :: z)) = some (.shape (listed (entry (union alt)) z).1, y) := by
  rw [head, constant_eq_none hn (halts_space_cons hb (by decide)) (by simp [hb]), shape_eq, hkey]
  simp only [bind_some, hb, char_self, closing_of_skip _ hclose]
  rfl

/-- What is left of a callable after its arguments: a colon with its result, or nothing. -/
def afterArguments (alt : Reader TypeAlternative) (args : List TypeExpr) : Reader TypeHead := fun rest =>
  match skip rest with
  | ':' :: afterColon =>
    match result alt (skip afterColon) with
    | some (t, rest) => some (.callable args (some t), rest)
    | none => some (.callable args none, rest)
  | _ => some (.callable args none, rest)

theorem callable_eq (alt : Reader TypeAlternative) (x : List Char) :
    callable alt x = (keyword ['c', 'a', 'l', 'l', 'a', 'b', 'l', 'e'] x).bind fun r =>
      (char '(' (skip r.2)).bind fun r =>
      (char ')' (skip (listed (argument (union alt)) r.2).2)).bind fun s =>
        afterArguments alt (listed (argument (union alt)) r.2).1 s.2 := by
  rw [callable]
  cases keyword ['c', 'a', 'l', 'l', 'a', 'b', 'l', 'e'] x with
  | none => rfl
  | some r =>
    simp only [bind_some]
    cases char '(' (skip r.2) with
    | none => rfl
    | some r =>
      simp only [bind_some, listed]
      generalize (separated ',' (argument (Reader.union alt)) (skip r.2)).getD ([], skip r.2) = p
      cases char ')' (skip p.2) <;> rfl

theorem head_of_callable {s : List Char} (hn : IsName n')
    (hkey : ∀ y, keyword ['c', 'a', 'l', 'l', 'a', 'b', 'l', 'e'] (n' ++ y) = some ((), y))
    (hb : ∀ y, skip (b ++ '(' :: y) = '(' :: y)
    (hclose : skip (listed (argument (union alt)) z).2 = ')' :: s)
    (hafter : afterArguments alt (listed (argument (union alt)) z).1 s = some (hd, y)) :
    head alt (n' ++ (b ++ '(' :: z)) = some (hd, y) := by
  have hhalts : Halts (b ++ '(' :: z) := halts_space_cons hb (by decide)
  rw [head, constant_eq_none hn hhalts (by simp [hb]), shape_eq_none hn hhalts (by simp [hb]), callable_eq, hkey]
  simp only [bind_some, hb, char_self, hclose, hafter]
  rfl

theorem takes_afterArguments (args : List TypeExpr) :
    Takes headEnds [] (afterArguments alt args) (.callable args none) := by
  intro y hy
  unfold afterArguments
  split
  · next left heq =>
    have hcolon := hy ':' (by rw [← nil_append y, heq]; rfl)
    exact absurd hcolon (by decide)
  · rfl

theorem Takes.afterArguments {t : TypeExpr} (args : List TypeExpr) (hb : ∀ y, skip (b ++ ':' :: y) = ':' :: y)
    (hd : ∀ y, skip (d ++ (text ++ y)) = text ++ y) (h : Takes ds text (result alt) t) :
    Takes ds (b ++ ':' :: (d ++ text)) (afterArguments alt args) (.callable args (some t)) := by
  intro y hy
  simp only [append_assoc, cons_append]
  rw [Reader.afterArguments, hb]
  simp only [hd, h y hy]

/-- Nothing that is read begins with a mark that parts or closes a list. -/
theorem head_eq_none {c : Char} (hc : c ∈ ['\x7d', ')', ',']) (cs : List Char) : head alt (c :: cs) = none := by
  have hname : name (c :: cs) = none := by
    simp only [mem_cons, not_mem_nil, or_false] at hc
    rcases hc with rfl | rfl | rfl <;>
      rw [name_cons (by decide), word_eq_none (by decide), map_none]
  have hconstant : constant (c :: cs) = none := by rw [constant, hname]
  have hgeneric : generic (Reader.union alt) (c :: cs) = none := by rw [generic, hname]
  simp only [mem_cons, not_mem_nil, or_false] at hc
  rcases hc with rfl | rfl | rfl <;> rfl

/-! ## Alternatives -/

theorem brackets_of_opens (m : Nat) (h : Opens alternativeEnds (skip y)) : brackets m y = (0, y) := by
  cases m with
  | zero => rfl
  | succ m =>
    rw [brackets]
    split
    · next rest heq =>
      have hbracket := h '[' (by rw [heq]; rfl)
      exact absurd hbracket (by decide)
    · rfl

def nullMark (x : List Char) : Bool × List Char :=
  match x with
  | '?' :: rest => (true, skip rest)
  | _ => (false, x)

theorem nullMark_cons {d : Char} (hd : d ≠ '?') (z : List Char) : nullMark (d :: z) = (false, d :: z) := by
  unfold nullMark
  split
  · next heq =>
    cases heq
    exact absurd rfl hd
  · rfl

theorem alternativeStep_eq (alt : Reader TypeAlternative) (x : List Char) :
    alternativeStep alt x = (head alt (nullMark x).2).map fun (h, rest) =>
      (⟨(nullMark x).1, h, (brackets rest.length rest).1⟩, (brackets rest.length rest).2) := rfl

def parenthesized (alt : Reader TypeAlternative) : Reader TypeExpr
  | '(' :: rest =>
    match union alt (skip rest) with
    | some (t, rest) => closing ')' t rest
    | none => none
  | _ => none

theorem parenthesized_cons (alt : Reader TypeAlternative) (z : List Char) :
    parenthesized alt ('(' :: z) = (union alt (skip z)).bind fun r => closing ')' r.1 r.2 := by
  rw [Reader.parenthesized]
  cases Reader.union alt (skip z) <;> rfl

theorem parenthesized_of_ne (alt : Reader TypeAlternative) (h : ∀ z, x ≠ '(' :: z) :
    parenthesized alt x = none := by
  unfold Reader.parenthesized
  split
  · next rest => exact absurd rfl (h rest)
  · rfl

theorem result_eq (alt : Reader TypeAlternative) (x : List Char) :
    result alt x =
      (parenthesized alt x).or ((alt x).map fun (a, rest) => (⟨[a]⟩, rest)) := by
  unfold result
  split
  · next rest =>
    rw [parenthesized_cons]
    cases Reader.union alt (skip rest) with
    | none => rfl
    | some r =>
      dsimp only [bind_some]
      cases closing ')' r.1 r.2 <;> rfl
  · next hne =>
    rw [parenthesized_of_ne alt hne]
    rfl

end Reader

end PhpFlow
