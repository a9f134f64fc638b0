import PhpFlow.Proofs.Describing
import PhpFlow.Proofs.Overflow

/-!
# Laws of comparison

Identity and loose equality do not depend on the order of their operands, and identical values are loosely
equal. For strings this needs that a numeric string denotes a number that equals itself; for arrays, that
their keys are not repeated.
-/
namespace PhpFlow

open List

/-! ## Numbers that equal themselves -/

namespace Number

theorem nearest_beq_self (negative : Bool) (n d : Nat) : nearest negative n d == nearest negative n d := by
  by_cases h : nearestBits n d = infinityBits
  · rw [nearest, h]
    cases negative <;> decide
  · rw [Float.beq_self_iff]
    intro hnan
    have hfinite := isFinite_nearest negative h
    rw [hnan] at hfinite
    exact absurd hfinite (by decide)

end Number

theorem Numeral.equal_self_of_value {n : Numeral} {a : Number} (h : n.value = .ok a) : a.equal a := by
  rcases n.value_cases h with ⟨v, rfl, -⟩ | ⟨negative, p, q, rfl⟩
  · exact beq_self_eq_true v
  · exact Number.nearest_beq_self negative p q

/-! ## Numeric strings -/

theorem Text.Table.exists_of_holds {c : Char} (table : Table) (h : table.holds c) :
    ∃ r ∈ table, r.1 ≤ c.toNat ∧ c.toNat ≤ r.2 := by
  induction table with
  | nil => cases h
  | cons r table ih =>
    grind [Table.holds]

theorem Text.digitValue?_of_isBlank {c : Char} (h : isBlank c) : digitValue? c = none := by
  have hranges : ∀ r ∈ (0x1C, 0x1F) :: spaceTable, ∀ z ∈ zeros, r.2 < z ∨ z + 9 < r.1 := by decide
  obtain ⟨r, hr, hlow, hhigh⟩ : ∃ r ∈ (0x1C, 0x1F) :: spaceTable, r.1 ≤ c.toNat ∧ c.toNat ≤ r.2 := by
    rw [isBlank, Bool.or_eq_true, Bool.and_eq_true, decide_eq_true_eq, decide_eq_true_eq] at h
    rcases h with h | h
    · obtain ⟨r, hr, hc⟩ := spaceTable.exists_of_holds h
      exact ⟨r, mem_cons_of_mem _ hr, hc⟩
    · exact ⟨_, mem_cons_self, h⟩
  rw [digitValue?, Option.map_eq_none_iff, find?_eq_none]
  intro z hz
  have hdisjoint := hranges r hr z hz
  simp
  omega

theorem Text.exists_dropEnd (p : Char → Bool) (cs : List Char) :
    ∃ t, cs = dropEnd p cs ++ t ∧ ∀ c ∈ t, p c := by
  refine ⟨(cs.reverse.takeWhile p).reverse, ?_, fun c hc => ?_⟩
  · rw [dropEnd, ← reverse_append, takeWhile_append_dropWhile, reverse_reverse]
  · exact mem_takeWhile_imp (mem_reverse.mp hc)

theorem Text.eq_nil_of_suffix_dropEnd {p : Char → Bool} {cs t : List Char} (h : t <:+ dropEnd p cs)
    (ht : ∀ c ∈ t, p c) : t = [] := by
  obtain ⟨u, hu⟩ := h
  have hkept : cs.reverse.dropWhile p = t.reverse ++ u.reverse := by
    rw [← reverse_append, hu, dropEnd, reverse_reverse]
  have hhead := head?_dropWhile_not p cs.reverse
  rw [hkept] at hhead
  rw [← reverse_eq_nil_iff]
  cases htr : t.reverse with
  | nil => rfl
  | cons c w =>
    rw [htr] at hhead
    have hc := ht c (mem_reverse.mp (by rw [htr]; exact mem_cons_self))
    simp [hc] at hhead

namespace Numeral

variable {cs t : List Char} {c : Char} {n : Numeral} {rest : List Char}

theorem ne_of_isBlank {d : Char} (h : Text.isBlank c) (hd : Text.isBlank d = false) : c ≠ d := by
  rintro rfl
  rw [hd] at h
  cases h

def fractionPart (cs : List Char) : Option (List Nat) × List Char :=
  match cs with
  | '.' :: rest =>
    let (ds, rest) := digits rest
    (some ds, rest)
  | _ => (none, cs)

/-- A numeral is scanned part by part, and has a digit before its exponent. -/
theorem scan?_eq (cs : List Char) : scan? cs =
    let whole := digits (sign cs).2
    let fraction := fractionPart whole.2
    let exponent := exponentPart fraction.2
    if whole.1 ++ fraction.1.getD [] = [] then none
    else some (⟨(sign cs).1, whole.1, fraction.1, exponent.1⟩, exponent.2) := by
  unfold scan? fractionPart
  dsimp only
  generalize digits (sign cs).2 = parts
  obtain ⟨whole, rest⟩ := parts
  cases whole <;> grind

section Blanks

variable (ht : ∀ c ∈ t, Text.isBlank c) (cs : List Char)

include ht

theorem digits_append : digits (cs ++ t) = ((digits cs).1, (digits cs).2 ++ t) := by
  induction cs with
  | nil =>
    cases t with
    | nil => rfl
    | cons c t => simp [digits, Text.digitValue?_of_isBlank (ht c mem_cons_self)]
  | cons c cs ih =>
    rw [cons_append, digits, digits]
    split
    · rfl
    · rw [ih]

theorem sign_append : sign (cs ++ t) = ((sign cs).1, (sign cs).2 ++ t) := by
  cases cs with
  | cons c cs =>
    unfold sign
    grind
  | nil =>
    cases t with
    | nil => rfl
    | cons c t =>
      have hc := ht c mem_cons_self
      have hminus : c ≠ '-' := ne_of_isBlank hc (by decide)
      have hplus : c ≠ '+' := ne_of_isBlank hc (by decide)
      unfold sign
      grind

theorem exponentPart_append : exponentPart (cs ++ t) = ((exponentPart cs).1, (exponentPart cs).2 ++ t) := by
  cases cs with
  | cons c cs =>
    have hsign := sign_append ht cs
    have hdigits := digits_append ht (sign cs).2
    grind [exponentPart]
  | nil =>
    cases t with
    | nil => rfl
    | cons c t =>
      have hc := ht c mem_cons_self
      have hlower : c ≠ 'e' := ne_of_isBlank hc (by decide)
      have hupper : c ≠ 'E' := ne_of_isBlank hc (by decide)
      grind [exponentPart]

theorem fractionPart_append : fractionPart (cs ++ t) = ((fractionPart cs).1, (fractionPart cs).2 ++ t) := by
  cases cs with
  | cons c cs =>
    have hdigits := digits_append ht cs
    unfold fractionPart
    grind
  | nil =>
    cases t with
    | nil => rfl
    | cons c t =>
      have hpoint : c ≠ '.' := ne_of_isBlank (ht c mem_cons_self) (by decide)
      unfold fractionPart
      grind

/-- Blanks after a text are no part of the numeral at its front. -/
theorem scan?_append : scan? (cs ++ t) = (scan? cs).map fun r => (r.1, r.2 ++ t) := by
  simp only [scan?_eq, sign_append ht, digits_append ht, fractionPart_append ht, exponentPart_append ht]
  split <;> rfl

end Blanks

theorem digits_suffix (cs : List Char) : (digits cs).2 <:+ cs := by
  induction cs with
  | nil => exact suffix_rfl
  | cons c cs ih =>
    rw [digits]
    split
    · exact suffix_rfl
    · exact ih.trans (suffix_cons c cs)

theorem sign_suffix (cs : List Char) : (sign cs).2 <:+ cs := by
  unfold sign
  split
  · exact suffix_cons _ _
  · exact suffix_cons _ _
  · exact suffix_rfl

theorem exponentPart_suffix (cs : List Char) : (exponentPart cs).2 <:+ cs := by
  cases cs with
  | nil => exact suffix_rfl
  | cons c cs =>
    have htail : (digits (sign cs).2).2 <:+ c :: cs :=
      ((digits_suffix _).trans (sign_suffix cs)).trans (suffix_cons c cs)
    grind [exponentPart]

theorem fractionPart_suffix (cs : List Char) : (fractionPart cs).2 <:+ cs := by
  unfold fractionPart
  split
  · exact (digits_suffix _).trans (suffix_cons _ _)
  · exact suffix_rfl

theorem suffix_of_scan? (h : scan? cs = some (n, rest)) : rest <:+ cs := by
  have hwhole := (digits_suffix _).trans (sign_suffix cs)
  have hfraction := (fractionPart_suffix _).trans hwhole
  have hexponent := (exponentPart_suffix _).trans hfraction
  rw [scan?_eq] at h
  dsimp only at h
  split at h
  · cases h
  · cases h
    exact hexponent

theorem scan?_cons (h : Text.isBlank c) (cs : List Char) : scan? (c :: cs) = none := by
  have hminus : c ≠ '-' := ne_of_isBlank h (by decide)
  have hplus : c ≠ '+' := ne_of_isBlank h (by decide)
  have hpoint : c ≠ '.' := ne_of_isBlank h (by decide)
  simp [scan?_eq, sign, digits, fractionPart, Text.digitValue?_of_isBlank h, hminus, hplus, hpoint]

/-- A numeral with nothing but blanks after it is read from end to end. -/
theorem scan?_trimChars (hscan : scan? cs = some (n, rest)) (hrest : ∀ c ∈ rest, Text.isBlank c) :
    scan? (Text.trimChars cs) = some (n, []) := by
  have hfront : cs.dropWhile Text.isBlank = cs := by
    cases cs with
    | nil => rfl
    | cons c cs =>
      rw [dropWhile_cons_of_neg]
      intro hc
      rw [scan?_cons hc] at hscan
      cases hscan
  obtain ⟨t, ht, hblank⟩ := Text.exists_dropEnd Text.isBlank cs
  rw [ht, scan?_append hblank] at hscan
  obtain ⟨⟨m, inner⟩, hinner, heq⟩ := Option.map_eq_some_iff.mp hscan
  cases heq
  have hnil : inner = [] := Text.eq_nil_of_suffix_dropEnd (suffix_of_scan? hinner)
    fun c hc => hrest c (mem_append_left _ hc)
  rw [Text.trimChars, hfront, hinner, hnil]

end Numeral

namespace NumericText

theorem isBlank_of_isPad {c : Char} (h : isPad c) : Text.isBlank c := by
  simp only [isPad, Bool.or_eq_true, Bool.and_eq_true, decide_eq_true_eq] at h
  rcases h with rfl | h
  · decide
  · simp [Text.isBlank, Text.isSpace, Text.spaceTable, Text.Table.holds]
    omega

theorem trimChars_dropWhile_isPad (cs : List Char) : Text.trimChars (cs.dropWhile isPad) = Text.trimChars cs := by
  induction cs with
  | nil => rfl
  | cons c cs ih =>
    by_cases hc : isPad c
    · rw [dropWhile_cons_of_pos hc, ih, Text.trimChars, Text.trimChars,
        dropWhile_cons_of_pos (isBlank_of_isPad hc)]
    · rw [dropWhile_cons_of_neg hc]

/-- What is numeric denotes a number, which equals itself. -/
theorem exists_of_whole? {s : String} {x : Option Number} (hs : isNumeric s) (h : whole? s = .ok x) :
    ∃ a, x = some a ∧ a.equal a := by
  unfold isNumeric at hs
  split at hs
  · rename_i numeral rest hscan
    have htrim := Numeral.scan?_trimChars hscan fun c hc =>
      isBlank_of_isPad (all_eq_true.mp hs c hc)
    rw [trimChars_dropWhile_isPad] at htrim
    simp only [whole?, Numeral.parse?, htrim] at h
    obtain ⟨a, ha, rfl⟩ := exists_of_map_ok h
    exact ⟨a, rfl, Numeral.equal_self_of_value ha⟩
  · cases hs

end NumericText

/-! ## Arrays without repeated keys -/

namespace Value

variable {as bs : List (ArrayKey × Value)} {k : ArrayKey} {a b : Value} {v w : Option Bool}

theorem lookup?_eq_none_iff (es : List (ArrayKey × Value)) : lookup? k es = none ↔ k ∉ es.map Prod.fst := by
  induction es with
  | nil => simp [lookup?]
  | cons e es ih =>
    rw [lookup?]
    split <;> simp_all

theorem nodup_keys (h : entriesAreWellKeyed as) : (as.map Prod.fst).Nodup := by
  induction as with
  | nil => exact nodup_nil
  | cons e as ih =>
    simp only [entriesAreWellKeyed, Bool.and_eq_true, Option.isNone_iff_eq_none] at h
    exact nodup_cons.mpr ⟨(lookup?_eq_none_iff as).mp h.1.1, ih h.2⟩

theorem isWellKeyed_of_mem (h : entriesAreWellKeyed as) (ha : (k, a) ∈ as) : a.isWellKeyed := by
  induction as with
  | nil => cases ha
  | cons e as ih =>
    simp only [entriesAreWellKeyed, Bool.and_eq_true] at h
    rcases mem_cons.mp ha with rfl | ha
    · exact h.1.2
    · exact ih h.2 ha

theorem lookup?_of_mem (h : entriesAreWellKeyed as) (ha : (k, a) ∈ as) : lookup? k as = some a := by
  induction as with
  | nil => cases ha
  | cons e as ih =>
    simp only [entriesAreWellKeyed, Bool.and_eq_true, Option.isNone_iff_eq_none] at h
    rw [lookup?]
    rcases mem_cons.mp ha with rfl | ha
    · simp
    · have hk := mem_map_of_mem (f := Prod.fst) ha
      rw [if_neg, ih h.2 ha]
      rintro rfl
      exact (lookup?_eq_none_iff as).mp h.1.1 hk

/-- If all keys of one of two arrays of one length are in the other, they have the same keys. -/
theorem keys_perm (has : entriesAreWellKeyed as) (hlen : bs.length = as.length)
    (h : as.map Prod.fst ⊆ bs.map Prod.fst) : (as.map Prod.fst).Perm (bs.map Prod.fst) :=
  ((nodup_keys has).subperm h).perm_of_length_le (by simp [hlen])

def entryVerdict (bs : List (ArrayKey × Value)) (e : ArrayKey × Value) : Except Fault (Option Bool) :=
  match lookup? e.1 bs with
  | none => .ok (some false)
  | some b => e.2.looseEqual b

theorem entryVerdict_of_lookup? (h : lookup? k bs = some b) : entryVerdict bs (k, a) = a.looseEqual b := by
  simp [entryVerdict, h]

/-- The verdict on the entries is that of one of them or the verdict before, and unless it is false, no entry
has another one but true. -/
theorem looseEqualEntries_cases {d : Option Bool} (h : looseEqualEntries bs as d = .ok v) (hd : d ≠ some false) :
    (v ≠ d → ∃ e ∈ as, entryVerdict bs e = .ok v) ∧ (d = none → v ≠ some true) ∧
      (v ≠ some false → ∀ e ∈ as, entryVerdict bs e = .ok v ∨ entryVerdict bs e = .ok (some true)) := by
  induction as generalizing d with
  | nil =>
    cases h
    simp +contextual
  | cons e as ih =>
    obtain ⟨k, a⟩ := e
    rw [looseEqualEntries] at h
    cases hb : lookup? k bs with
    | none =>
      rw [hb] at h
      cases h
      exact ⟨fun _ => ⟨_, mem_cons_self, by simp [entryVerdict, hb]⟩, by simp, by simp⟩
    | some b =>
      rw [hb] at h
      obtain ⟨r, hr, h⟩ := exists_of_bind_ok h
      have hhead := entryVerdict_of_lookup? (a := a) hb
      rw [hr] at hhead
      rcases r with _ | (_ | _)
      · obtain ⟨hcause, hopen, hrest⟩ := ih h (by simp)
        rcases v with _ | (_ | _) <;> grind
      · cases h
        exact ⟨fun _ => ⟨_, mem_cons_self, hhead⟩, by simp, by simp⟩
      · obtain ⟨hcause, hopen, hrest⟩ := ih h hd
        grind

theorem eq_of_imp (h : v ≠ some true → w ≠ some false → v = w) (h' : w ≠ some true → v ≠ some false → w = v) :
    v = w := by
  rcases v with _ | (_ | _) <;> rcases w with _ | (_ | _) <;> simp_all

/-- Two arrays whose entries compare alike from both sides do so themselves, unless the one that the other
is compared with has all its keys and differs. -/
theorem eq_of_looseEqualEntries (has : entriesAreWellKeyed as) (hbs : entriesAreWellKeyed bs)
    (hlen : as.length = bs.length)
    (hcomm : ∀ k a b, (k, a) ∈ as → (k, b) ∈ bs → ∀ v w, a.looseEqual b = .ok v → b.looseEqual a = .ok w → v = w)
    (h : looseEqualEntries bs as (some true) = .ok v) (h' : looseEqualEntries as bs (some true) = .ok w)
    (hv : v ≠ some true) (hw : w ≠ some false) : v = w := by
  obtain ⟨⟨k, a⟩, ha, hverdict⟩ := (looseEqualEntries_cases h (by simp)).1 hv
  have hrest := (looseEqualEntries_cases h' (by simp)).2.2 hw
  -- No entry of `bs` lacks a counterpart, so none of `as` does.
  have hkeys : bs.map Prod.fst ⊆ as.map Prod.fst := by
    intro l hl
    by_contra hnone
    obtain ⟨e, he, rfl⟩ := mem_map.mp hl
    have hfalse : entryVerdict as e = .ok (some false) := by
      rw [entryVerdict, (lookup?_eq_none_iff as).mpr hnone]
    rcases hrest e he with hverdict | hverdict
    · exact hw (Except.ok.inj (hverdict.symm.trans hfalse))
    · cases hfalse.symm.trans hverdict
  have hk := (keys_perm hbs hlen hkeys).mem_iff.mpr (mem_map_of_mem ha)
  obtain ⟨⟨l, b⟩, hb, hl⟩ := mem_map.mp hk
  cases hl
  rw [entryVerdict_of_lookup? (lookup?_of_mem hbs hb)] at hverdict
  have hmirror := hrest _ hb
  rw [entryVerdict_of_lookup? (lookup?_of_mem has ha)] at hmirror
  rcases hmirror with hmirror | hmirror
  · exact hcomm k a b ha hb _ _ hverdict hmirror
  · exact absurd (hcomm k a b ha hb _ _ hverdict hmirror) hv

theorem sameKeys_comm (as bs : List (ArrayKey × Value)) : sameKeys as bs = sameKeys bs as := by
  have hperm : ((as.map fun e => e.1.toText).isPerm (bs.map fun e => e.1.toText)) =
      ((bs.map fun e => e.1.toText).isPerm (as.map fun e => e.1.toText)) := by
    rw [Bool.eq_iff_iff, isPerm_iff, isPerm_iff]
    exact perm_comm
  rw [sameKeys, sameKeys, hperm, all_append, all_append, Bool.and_comm]

theorem length_eq_of_sameKeys (h : sameKeys as bs = .ok true) : as.length = bs.length := by
  rw [sameKeys] at h
  split at h
  · simpa using (isPerm_iff.mp (Except.ok.inj h)).length_eq
  · cases h

theorem Number.equal_comm (m n : Number) : m.equal n = n.equal m := by
  cases m <;> cases n <;> first | rfl | exact BEq.comm

theorem stringEqualsString_comm {s t : String} (h : stringEqualsString s t = .ok v)
    (h' : stringEqualsString t s = .ok w) : v = w := by
  rw [stringEqualsString, Bool.and_comm] at h'
  rw [stringEqualsString] at h
  split at h
  · rename_i hnumeric
    rw [if_pos hnumeric] at h'
    obtain ⟨x, hx, h⟩ := exists_of_bind_ok h
    obtain ⟨y, hy, h⟩ := exists_of_bind_ok h
    rw [hx, hy] at h'
    rcases x with _ | x <;> rcases y with _ | y <;> cases h <;> cases h'
    · rfl
    · rfl
    · rfl
    · rw [Number.equal_comm]
  · rename_i hnumeric
    rw [if_neg hnumeric] at h'
    cases h
    cases h'
    rw [BEq.comm]

/-- What is so of a value if it is so of all values in it is so of every value. -/
theorem entries_induction {P : Value → Prop} (h : ∀ v, (∀ es, v = array es → ∀ e ∈ es, P e.2) → P v)
    (v : Value) : P v := by
  apply h
  intro es hes e he
  have hlt := sizeOf_lt_of_mem he
  exact entries_induction h e.2
termination_by v
decreasing_by
  obtain ⟨k, w⟩ := e
  rw [hes]
  simp at hlt ⊢
  omega

theorem looseEqual_array (h : (array as).looseEqual (array bs) = .ok v) :
    ∃ same, sameKeys as bs = .ok same ∧
      (if same then looseEqualEntries bs as (some true) else .ok (some false)) = .ok v := by
  rw [looseEqual] at h
  cases hsame : sameKeys as bs with
  | error e =>
    rw [hsame] at h
    cases h
  | ok same =>
    rw [hsame] at h
    exact ⟨same, rfl, h⟩

/-- Only two strings and two arrays are compared by rules that treat the operands apart. -/
theorem looseEqual_comm_or (a b : Value) :
    a.looseEqual b = b.looseEqual a ∨ (∃ s t, a = string s ∧ b = string t) ∨
      ∃ as bs, a = array as ∧ b = array bs := by
  cases a <;> cases b <;> first
    | exact .inl rfl
    | exact .inr (.inl ⟨_, _, rfl, rfl⟩)
    | exact .inr (.inr ⟨_, _, rfl, rfl⟩)
    | exact .inl (congrArg (fun x => Except.ok (some x)) BEq.comm)

/-- Loose equality does not depend on the order of its operands. -/
theorem eq_of_looseEqual (a b : Value) (ha : a.isWellKeyed) (hb : b.isWellKeyed)
    (h : a.looseEqual b = .ok v) (h' : b.looseEqual a = .ok w) : v = w := by
  induction a using entries_induction generalizing b v w with
  | h a ih =>
  rcases looseEqual_comm_or a b with heq | ⟨s, t, rfl, rfl⟩ | ⟨as, bs, rfl, rfl⟩
  · exact Except.ok.inj (h.symm.trans (heq.trans h'))
  · exact stringEqualsString_comm h h'
  · obtain ⟨same, hsame, h⟩ := looseEqual_array h
    obtain ⟨same', hsame', h'⟩ := looseEqual_array h'
    rw [sameKeys_comm, hsame] at hsame'
    cases hsame'
    cases same with
    | false => exact Except.ok.inj (h.symm.trans h')
    | true =>
      have hlen := length_eq_of_sameKeys hsame
      have hcomm : ∀ k a b, (k, a) ∈ as → (k, b) ∈ bs →
          ∀ v w, a.looseEqual b = .ok v → b.looseEqual a = .ok w → v = w :=
        fun k a b hka hkb v w =>
          ih as rfl _ hka b (isWellKeyed_of_mem ha hka) (isWellKeyed_of_mem hb hkb)
      have hforth := eq_of_looseEqualEntries ha hb hlen hcomm h h'
      have hback := eq_of_looseEqualEntries hb ha hlen.symm
        (fun k b a hkb hka w v hw hv => (hcomm k a b hka hkb v w hv hw).symm) h' h
      exact eq_of_imp hforth hback

/-! ## Identical values -/

theorem both_eq_true (h : both v w = some true) : v = some true ∧ w = some true := by
  rcases v with _ | (_ | _) <;> rcases w with _ | (_ | _) <;> simp_all [both]

theorem identicalEntries_comm (hcomm : ∀ e ∈ as, ∀ b, e.2.identical b = b.identical e.2) :
    identicalEntries as bs = identicalEntries bs as := by
  induction as generalizing bs with
  | nil => cases bs <;> rfl
  | cons e as ih =>
    cases bs with
    | nil => rfl
    | cons e' bs =>
      rw [identicalEntries, identicalEntries, hcomm e mem_cons_self,
        ih fun e he => hcomm e (mem_cons_of_mem _ he)]
      by_cases hk : e.1 = e'.1
      · rw [if_pos hk, if_pos hk.symm]
      · rw [if_neg hk, if_neg (Ne.symm hk)]

theorem identical_comm (a b : Value) : a.identical b = b.identical a := by
  induction a using entries_induction generalizing b with
  | h a ih =>
  cases a <;> cases b <;> first
    | rfl
    | exact congrArg some BEq.comm
    | exact identicalEntries_comm (ih _ rfl)

theorem cons_of_identicalEntries {e e' : ArrayKey × Value}
    (h : identicalEntries (e :: as) (e' :: bs) = some true) :
    e.1 = e'.1 ∧ e.2.identical e'.2 = some true ∧ identicalEntries as bs = some true := by
  rw [identicalEntries] at h
  split at h
  · rename_i hk
    exact ⟨hk, both_eq_true h⟩
  · cases h

theorem keys_of_identicalEntries (h : identicalEntries as bs = some true) :
    as.map Prod.fst = bs.map Prod.fst := by
  induction as generalizing bs with
  | nil =>
    cases bs with
    | nil => rfl
    | cons e' bs => cases h
  | cons e as ih =>
    cases bs with
    | nil => cases h
    | cons e' bs =>
      obtain ⟨hk, -, h⟩ := cons_of_identicalEntries h
      rw [map_cons, map_cons, hk, ih h]

theorem sameKeys_of_identicalEntries {same : Bool} (h : identicalEntries as bs = some true)
    (hsame : sameKeys as bs = .ok same) : same = true := by
  have htexts : as.map (fun e => e.1.toText) = bs.map (fun e => e.1.toText) := by
    have hmap := congrArg (List.map ArrayKey.toText) (keys_of_identicalEntries h)
    rwa [map_map, map_map] at hmap
  rw [sameKeys] at hsame
  split at hsame
  · rw [← Except.ok.inj hsame, isPerm_iff, htexts]
  · cases hsame

theorem stringEqualsString_self {s : String} (h : stringEqualsString s s = .ok v) : v = some true := by
  rw [stringEqualsString, Bool.and_self] at h
  split at h
  · rename_i hnumeric
    obtain ⟨x, hx, h⟩ := exists_of_bind_ok h
    rw [hx] at h
    obtain ⟨a, rfl, ha⟩ := NumericText.exists_of_whole? hnumeric hx
    cases h
    rw [ha]
  · cases h
    rw [beq_self_eq_true]

theorem lookup?_of_identicalEntries (h : identicalEntries as bs = some true) (ha : lookup? k as = some a) :
    ∃ b, lookup? k bs = some b ∧ a.identical b = some true := by
  induction as generalizing bs with
  | nil => cases ha
  | cons e as ih =>
    cases bs with
    | nil => cases h
    | cons e' bs =>
      obtain ⟨hk, hhead, h⟩ := cons_of_identicalEntries h
      rw [lookup?] at ha ⊢
      rw [← hk]
      split
      · rename_i heq
        rw [if_pos heq] at ha
        cases ha
        exact ⟨_, rfl, hhead⟩
      · rename_i hne
        rw [if_neg hne] at ha
        exact ih h ha

theorem looseEqual_of_identical (a b : Value) (ha : a.isWellKeyed) (h : a.identical b = some true)
    (hv : a.looseEqual b = .ok v) : v = some true := by
  induction a using entries_induction generalizing b v with
  | h a ih =>
  cases a with
  | array as =>
    cases b with
    | array bs =>
      obtain ⟨same, hsame, hv⟩ := looseEqual_array hv
      have htrue := sameKeys_of_identicalEntries h hsame
      rw [htrue] at hv
      by_contra hne
      obtain ⟨⟨k, a⟩, hka, hverdict⟩ := (looseEqualEntries_cases hv (by simp)).1 hne
      obtain ⟨b, hb, hab⟩ := lookup?_of_identicalEntries h (lookup?_of_mem ha hka)
      rw [entryVerdict_of_lookup? hb] at hverdict
      exact hne (ih as rfl _ hka b (isWellKeyed_of_mem ha hka) hab hverdict)
    | _ => cases h
  | string s =>
    cases b with
    | string t =>
      have heq : s = t := by simpa [identical] using h
      rw [← heq] at hv
      exact stringEqualsString_self hv
    | _ => cases h
  | object c => cases b <;> cases h
  | _ =>
    cases b <;> first
      | (cases hv; exact h)
      | cases h

/-- Where comparing two values raises no error, neither comparison depends on the order of its operands, and
identical values are loosely equal. -/
theorem comparisons_are_lawful (l r : Value) (hl : l.isWellKeyed) (hr : r.isWellKeyed)
    (hlr : (l.looseEqual r).isOk) (hrl : (r.looseEqual l).isOk) :
    l.looseEqual r = r.looseEqual l ∧ l.identical r = r.identical l ∧
      (l.identical r = some true → l.looseEqual r = .ok (some true)) := by
  cases hv : l.looseEqual r with
  | error e =>
    rw [hv] at hlr
    cases hlr
  | ok v =>
    cases hw : r.looseEqual l with
    | error e =>
      rw [hw] at hrl
      cases hrl
    | ok w =>
      refine ⟨?_, identical_comm l r, fun h => ?_⟩
      · rw [eq_of_looseEqual l r hl hr hv hw]
      · rw [looseEqual_of_identical l r hl h hv]

def tens : Value :=
  .array [(.int 1, .string " 1e1"), (.text "a", .array [(.int 1, .string "10"), (.text "b", .null)])]

def tensReordered : Value :=
  .array [(.text "a", .array [(.text "b", .string ""), (.int 1, .int 10)]), (.int 1, .string "10.0 ")]

theorem tens_compared : tens.looseEqual tensReordered = .ok (some true) ∧
    tensReordered.looseEqual tens = .ok (some true) ∧ tens.looseEqual tens = .ok (some true) := by
  have h : tens.looseEqual tensReordered = .ok (some true) := by decide
  have hlaws := comparisons_are_lawful tens tensReordered (by decide) (by decide) (by decide) (by decide)
  have hself := comparisons_are_lawful tens tens (by decide) (by decide) (by decide) (by decide +kernel)
  exact ⟨h, hlaws.1 ▸ h, hself.2.2 (by decide +kernel)⟩

end Value

end PhpFlow
