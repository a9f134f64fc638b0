import PhpFlow.Proofs.Comparing

/-!
# Numbers in strings

As an array key a string is an integer only if it is the very text of the integer; the reader looks past one
newline at the end, so that two strings share such a key. In arithmetic the numeral at its front counts, and
in a comparison the string as a whole, if it is numeric.
-/
namespace PhpFlow

open List

/-- Whatever a numeral denotes, it is readable. -/
theorem Numeral.isReadable_of_value {n : Numeral} {a : Number} (h : n.value = .ok a) : n.isReadable = true := by
  have habs : (if n.negative then -(natOf n.whole : Int) else natOf n.whole).natAbs = natOf n.whole := by
    split <;> simp
  unfold value at h
  split at h
  · split at h
    · cases h
    · next hlimit =>
      dsimp only at h
      generalize (if n.negative then -(natOf n.whole : Int) else natOf n.whole) = v at h habs
      have hfits : v.natAbs < Number.overflow := by
        split at h
        · next hrange => exact Number.lt_overflow_of_lt (by have := Number.natAbs_le_of_inRange hrange; omega)
        · obtain ⟨x, hx, -⟩ := exists_of_map_ok h
          rw [← Number.fits_int, ← Number.isOk_toFloat, hx]
          rfl
      simp [isReadable, ← habs, hfits, Nat.not_lt.mp hlimit]
  · next hinteger => simp [isReadable, hinteger]

namespace NumericText

variable {s : String} {n : Int} {c : Char} {cs : List Char}

/-! ## Array keys -/

theorem exists_digitChar (h : c.isDigit) : ∃ k < 10, c = k.digitChar := by
  have hbounds : 48 ≤ c.toNat ∧ c.toNat ≤ 57 := Char.isDigit_iff_toNat.mp h
  have hdigits : ∀ k < 10, Char.ofNat (k + 48) = k.digitChar := by decide
  have hc := hdigits (c.toNat - 48) (by omega)
  rw [Nat.sub_add_cancel hbounds.1, Char.ofNat_toNat] at hc
  exact ⟨c.toNat - 48, by omega, hc⟩

/-- Digits without a zero in front are the text of the number that they spell. -/
theorem toDigits_ofDigitChars (hc : c.isDigit) (hzero : c ≠ '0') (hcs : ∀ d ∈ cs, d.isDigit) :
    0 < Nat.ofDigitChars 10 (c :: cs) 0 ∧ Nat.toDigits 10 (Nat.ofDigitChars 10 (c :: cs) 0) = c :: cs := by
  induction cs using List.reverseRecOn with
  | nil =>
    obtain ⟨k, hk, rfl⟩ := exists_digitChar hc
    have hpos : k ≠ 0 := by
      rintro rfl
      exact hzero rfl
    rw [Nat.ofDigitChars_cons_digitChar_of_lt_ten hk, Nat.ofDigitChars_nil, Nat.mul_zero, Nat.zero_add,
      Nat.toDigits_of_lt_base hk]
    exact ⟨by omega, rfl⟩
  | append_singleton cs d ih =>
    rw [forall_mem_append] at hcs
    obtain ⟨hpos, hdigits⟩ := ih hcs.1
    obtain ⟨k, hk, rfl⟩ := exists_digitChar (hcs.2 d mem_cons_self)
    rw [← cons_append, Nat.ofDigitChars_append, Nat.ofDigitChars_cons_digitChar_of_lt_ten hk,
      Nat.ofDigitChars_nil, ← Nat.toDigits_append_toDigits (by decide) hpos hk, hdigits, Nat.toDigits_of_lt_base hk]
    exact ⟨by omega, rfl⟩

theorem head?_toDigits {m : Nat} (hm : 0 < m) : (Nat.toDigits 10 m).head? ≠ some '0' := by
  induction m using Nat.strong_induction_on with
  | _ m ih =>
    rw [Nat.toDigits_eq_if (by decide)]
    split
    · have hdigits : ∀ k < 10, 0 < k → [Nat.digitChar k].head? ≠ some '0' := by decide
      exact hdigits m ‹m < 10› hm
    · rw [head?_append_of_ne_nil _ Nat.toDigits_ne_nil]
      exact ih (m / 10) (by omega) (by omega)

/-- The text of a number has digits only, and no zero in front but that of zero itself. -/
theorem exists_toDigits (m : Nat) : ∃ c cs, Nat.toDigits 10 m = c :: cs ∧ c.isDigit ∧ (0 < m → c ≠ '0') ∧
    ∀ d ∈ cs, d.isDigit := by
  have hall (d : Char) (hd : d ∈ Nat.toDigits 10 m) : d.isDigit :=
    Nat.isDigit_of_mem_toDigits (by decide) (by decide) hd
  obtain ⟨c, cs, hcons⟩ := exists_cons_of_ne_nil (Nat.toDigits_ne_nil (n := m) (b := 10))
  rw [hcons, forall_mem_cons] at hall
  refine ⟨c, cs, hcons, hall.1, ?_, hall.2⟩
  rintro hm rfl
  exact head?_toDigits hm (by rw [hcons]; rfl)

theorem sign_of_isDigit (hc : c.isDigit) (cs : List Char) : Numeral.sign (c :: cs) = (false, c :: cs) := by
  unfold Numeral.sign
  split
  · next heq =>
    cases heq
    exact absurd hc (by decide)
  · next heq =>
    cases heq
    exact absurd hc (by decide)
  · rfl

theorem sign_toString (n : Int) :
    Numeral.sign (toString n).toList = (decide (n < 0), Nat.toDigits 10 n.natAbs) := by
  rw [toList_toString_int]
  by_cases hn : n < 0
  · rw [if_pos hn, decide_eq_true hn]
    rfl
  · obtain ⟨c, cs, hcons, hc, -⟩ := exists_toDigits n.natAbs
    rw [if_neg hn, decide_eq_false hn, nil_append, hcons, sign_of_isDigit hc]

/-- What counts as an integer is the text of one. -/
theorem isCanonicalInt_iff (cs : List Char) : isCanonicalInt cs = true ↔ ∃ n : Int, cs = (toString n).toList := by
  simp only [toList_toString_int]
  constructor
  · intro h
    unfold isCanonicalInt at h
    split at h
    · exact ⟨0, rfl⟩
    · next c cs =>
      simp only [Bool.and_eq_true, decide_eq_true_eq, all_eq_true] at h
      obtain ⟨hpos, hdigits⟩ := toDigits_ofDigitChars h.1.1 h.1.2 h.2
      refine ⟨-(Nat.ofDigitChars 10 (c :: cs) 0 : Int), ?_⟩
      rw [if_pos (by omega), Int.natAbs_neg, Int.natAbs_natCast, hdigits]
      rfl
    · next c cs _ _ =>
      simp only [Bool.and_eq_true, decide_eq_true_eq, all_eq_true] at h
      obtain ⟨hpos, hdigits⟩ := toDigits_ofDigitChars h.1.1 h.1.2 h.2
      refine ⟨Nat.ofDigitChars 10 (c :: cs) 0, ?_⟩
      rw [if_neg (by omega), Int.natAbs_natCast, hdigits]
      rfl
    · cases h
  · rintro ⟨n, rfl⟩
    rcases Int.lt_trichotomy n 0 with hn | rfl | hn
    · obtain ⟨c, cs, hcons, hc, hzero, hcs⟩ := exists_toDigits n.natAbs
      rw [if_pos hn, hcons]
      simpa [isCanonicalInt, hc, hzero (by omega)] using hcs
    · rfl
    · obtain ⟨c, cs, hcons, hc, hzero, hcs⟩ := exists_toDigits n.natAbs
      have hminus : c ≠ '-' := by
        rintro rfl
        exact absurd hc (by decide)
      rw [if_neg (by omega), nil_append, hcons]
      simpa [isCanonicalInt, hc, hzero (by omega), hminus] using hcs

/-- The string is the text of the integer, but that a newline may follow. -/
def Spells (s : String) (n : Int) : Prop := s = toString n ∨ s = toString n ++ "\n"

theorem newline_not_mem_toString (n : Int) : '\n' ∉ (toString n).toList := by
  intro h
  rw [toList_toString_int, mem_append] at h
  rcases h with h | h
  · split at h <;> simp at h
  · exact absurd (Nat.isDigit_of_mem_toDigits (by decide) (by decide) h) (by decide)

theorem eq_dropNewline_or (cs : List Char) : cs = dropNewline cs ∨ cs = dropNewline cs ++ ['\n'] := by
  unfold dropNewline
  split
  · next rest h =>
    right
    rw [← reverse_cons, ← h, reverse_reverse]
  · exact .inl rfl

theorem spells_iff : Spells s n ↔ dropNewline s.toList = (toString n).toList := by
  constructor
  · rintro (rfl | rfl)
    · rcases eq_dropNewline_or (toString n).toList with h | h
      · exact h.symm
      · exact absurd (h ▸ mem_append_right _ mem_cons_self) (newline_not_mem_toString n)
    · simp [dropNewline]
  · intro h
    have hs := eq_dropNewline_or s.toList
    rw [h] at hs
    refine hs.imp String.toList_inj.mp fun hs => ?_
    rw [← String.toList_inj, hs, String.toList_append]
    rfl

theorem toKey_of_spells (h : Spells s n) : toKey s =
    if Number.isWritable n then .ok (if Number.inRange n then .int n else .text s)
    else .error (.tooManyDigits (Nat.toDigits 10 n.natAbs).length) := by
  have hdrop := spells_iff.mp h
  have hcanonical := (isCanonicalInt_iff (dropNewline s.toList)).mpr ⟨n, hdrop⟩
  have hnat : Numeral.natOf ((Nat.toDigits 10 n.natAbs).map fun d => d.toNat - 48) = n.natAbs := by
    rw [Numeral.natOf, foldl_map]
    exact Nat.ofDigitChars_eq_foldl.symm.trans Nat.ofDigitChars_ten_toDigits
  have hsign : (if decide (n < 0) then -(n.natAbs : Int) else n.natAbs) = n := by
    simp only [decide_eq_true_eq]
    split <;> omega
  have hlimit : Number.isWritable n = true ↔ ¬ Number.digitLimit < (Nat.toDigits 10 n.natAbs).length := by
    rw [Number.isWritable, Number.hasDigitsWithin_iff (by decide), Nat.not_lt,
      Nat.length_toDigits_le_iff (by decide) (by decide)]
  rw [toKey]
  dsimp only
  rw [if_pos hcanonical, hdrop, sign_toString, hnat, hsign]
  simp only [hlimit, ite_not]

theorem toKey_of_not_spells (h : ∀ n, ¬ Spells s n) : toKey s = .ok (.text s) := by
  have hcanonical : isCanonicalInt (dropNewline s.toList) ≠ true := by
    rw [Ne, isCanonicalInt_iff]
    rintro ⟨n, hn⟩
    exact h n (spells_iff.mpr hn)
  rw [toKey]
  exact if_neg hcanonical

theorem spells_of_toKey (s : String) :
    (∀ n, toKey s = .ok (.int n) → Spells s n ∧ Number.inRange n = true) ∧
    (∀ u, toKey s = .ok (.text u) → u = s) ∧
    ∀ e, toKey s = .error e → ∃ n, Spells s n ∧ Number.isWritable n = false := by
  by_cases hs : ∃ n, Spells s n
  · obtain ⟨n, hn⟩ := hs
    rw [toKey_of_spells hn]
    cases hlong : Number.isWritable n with
    | false => exact ⟨nofun, nofun, fun _ _ => ⟨n, hn, hlong⟩⟩
    | true =>
      cases hrange : Number.inRange n with
      | true => exact ⟨fun _ h => by cases h; exact ⟨hn, hrange⟩, nofun, nofun⟩
      | false => exact ⟨nofun, fun _ h => by cases h; rfl, nofun⟩
  · rw [toKey_of_not_spells (not_exists.mp hs)]
    exact ⟨nofun, fun _ h => by cases h; rfl, nofun⟩

/-- A string is an integer as a key just if it is the text of the integer, but that one newline may follow, and
the integer has 64 bits; otherwise it is the key itself. The text of an integer with too many digits is no key
at all. So two strings are one key only if one of them is the other with a newline behind it. -/
theorem keys_of_strings (s : String) :
    (∀ n, toKey s = .ok (.int n) ↔ Spells s n ∧ Number.inRange n = true) ∧
    (∀ u, toKey s = .ok (.text u) → u = s) ∧
    ((∃ e, toKey s = .error e) ↔ ∃ n, Spells s n ∧ Number.isWritable n = false) ∧
    ∀ t k, toKey s = .ok k → toKey t = .ok k → s = t ∨ s = t ++ "\n" ∨ t = s ++ "\n" := by
  obtain ⟨hint, htext, herror⟩ := spells_of_toKey s
  refine ⟨fun n => ⟨hint n, fun ⟨hn, hrange⟩ => ?_⟩, htext, ⟨fun ⟨e, he⟩ => herror e he, fun ⟨n, hn, hlong⟩ => ?_⟩,
    fun t k hs ht => ?_⟩
  · rw [toKey_of_spells hn, if_pos (Number.isWritable_of_inRange hrange), if_pos hrange]
  · rw [toKey_of_spells hn, hlong]
    exact ⟨_, rfl⟩
  · obtain ⟨hint', htext', -⟩ := spells_of_toKey t
    cases k with
    | text u => exact .inl ((htext u hs).symm.trans (htext' u ht))
    | int n => rcases (hint n hs).1 with rfl | rfl <;> rcases (hint' n ht).1 with rfl | rfl <;> simp

/-- Two strings that share a key, one of which is no text of an integer, and the text of an integer that is
no key. -/
theorem newline_shares_key :
    toKey "5" = .ok (.int 5) ∧ toKey "5\n" = .ok (.int 5) ∧ (∀ n : Int, "5\n" ≠ toString n) ∧
      ∃ e, toKey (toString ((10 : Int) ^ Number.digitLimit)) = .error e := by
  have hlong : ∀ k, 0 < k → Number.hasDigitsWithin k ((10 : Int) ^ k).natAbs = false := fun k hk => by
    rw [← Bool.not_eq_true, Number.hasDigitsWithin_iff hk, Int.natAbs_pow]
    exact Nat.lt_irrefl _
  refine ⟨rfl, rfl, fun n hn => newline_not_mem_toString n (hn ▸ by decide), ?_⟩
  rw [toKey_of_spells (.inl rfl), Number.isWritable, hlong _ (by decide)]
  exact ⟨_, rfl⟩

/-! ## Numerals -/

/-- The numeral at the front of a numeric string is the whole of it. -/
theorem exists_numeral (hs : isNumeric s) :
    ∃ n rest, Numeral.scan? (s.toList.dropWhile isPad) = some (n, rest) ∧ Numeral.parse? s.toList = some n := by
  unfold isNumeric at hs
  split at hs
  · next n rest hscan =>
    have htrim := Numeral.scan?_trimChars hscan fun c hc => isBlank_of_isPad (all_eq_true.mp hs c hc)
    rw [trimChars_dropWhile_isPad] at htrim
    exact ⟨n, rest, hscan, by rw [Numeral.parse?, htrim]⟩
  · cases hs

/-- Arithmetic and comparison read a numeric string as the same number, unless it spells an integer that neither
can read; and there is a number at the front of every numeric string. -/
theorem readings_of_numeric_string (s : String) :
    (isNumeric s = true →
      leading? s = whole? s ∧ ((∃ a, leading? s = .ok (some a)) ↔ isReadable s = true)) ∧
    (leading? s = .ok none → isNumeric s = false) := by
  have hsome {n rest} (hscan : Numeral.scan? (s.toList.dropWhile isPad) = some (n, rest)) :
      leading? s = n.value.map some := by
    simp only [leading?, hscan]
  refine ⟨fun hs => ?_, fun hnone => ?_⟩
  · obtain ⟨n, rest, hscan, hparse⟩ := exists_numeral hs
    rw [hsome hscan]
    refine ⟨by simp only [whole?, hparse], ?_, fun hread => ?_⟩
    · rintro ⟨a, ha⟩
      obtain ⟨b, hb, -⟩ := exists_of_map_ok ha
      simp [isReadable, numerals, hscan, hparse, Numeral.isReadable_of_value hb]
    · have hn : n.isReadable = true := all_eq_true.mp hread n (by simp [numerals, hparse])
      obtain ⟨a, ha, -⟩ := n.exists_value hn
      exact ⟨a, by rw [ha]; rfl⟩
  · rw [← Bool.not_eq_true]
    intro hs
    obtain ⟨n, rest, hscan, -⟩ := exists_numeral hs
    rw [hsome hscan] at hnone
    cases hv : n.value with
    | error e =>
      rw [hv] at hnone
      cases hnone
    | ok a =>
      rw [hv] at hnone
      cases hnone

/-- A string with blanks around a numeral that has all the parts a numeral can have. -/
theorem padded_numeral_reads_alike : isNumeric " -1.5e+3\n" = true ∧
    leading? " -1.5e+3\n" = whole? " -1.5e+3\n" ∧ ∃ a, leading? " -1.5e+3\n" = .ok (some a) := by
  have hs : isNumeric " -1.5e+3\n" = true := by decide +kernel
  obtain ⟨hsame, hfound⟩ := (readings_of_numeric_string _).1 hs
  exact ⟨hs, hsame, hfound.mpr (by decide +kernel)⟩

/-- A numeric string in which no number is found. -/
theorem googol_has_no_number :
    isNumeric (.ofList ('1' :: List.replicate 309 '0')) = true ∧
      (leading? (.ofList ('1' :: List.replicate 309 '0'))).isOk = false := by
  constructor
  · rw [isNumeric, String.toList_ofList]
    decide +kernel
  · rw [leading?, String.toList_ofList]
    decide +kernel

end NumericText

end PhpFlow
