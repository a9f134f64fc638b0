import PhpFlow.Concrete.Literal

/-!
# Texts in single quotes

Three replacements, one after the other, read a text in single quotes as one scan from left to right does. The
null character, which keeps the place of a backslash between them, is the one that they cannot read.
-/
namespace PhpFlow.Literal

open List

variable {a b c x : Char} {cs : List Char}

/-- One scan: after a backslash, a backslash or a quote stands for itself; all else is copied. -/
def unquote : List Char → List Char
  | '\\' :: '\\' :: cs => '\\' :: unquote cs
  | '\\' :: '\'' :: cs => '\'' :: unquote cs
  | c :: cs => c :: unquote cs
  | [] => []

def quote (cs : List Char) : List Char := cs.flatMap fun c => if c = '\\' ∨ c = '\'' then ['\\', c] else [c]

theorem replacePair_cons_cons : replacePair a b c (a :: b :: cs) = c :: replacePair a b c cs := by
  rw [replacePair, if_pos ⟨rfl, rfl⟩]

theorem replacePair_cons (h : x = a → cs.head? ≠ some b) :
    replacePair a b c (x :: cs) = x :: replacePair a b c cs := by
  cases cs with
  | nil => rfl
  | cons y cs =>
    rw [replacePair, if_neg]
    rintro ⟨rfl, rfl⟩
    exact h rfl rfl

theorem replacePair_cons_of_ne (h : x ≠ a) : replacePair a b c (x :: cs) = x :: replacePair a b c cs :=
  replacePair_cons fun hx => absurd hx h

theorem head?_replacePair (h : cs.head? ≠ some a) : (replacePair a b c cs).head? = cs.head? := by
  cases cs with
  | nil => rfl
  | cons x cs =>
    rw [replacePair_cons_of_ne fun hx => h (congrArg some hx)]
    rfl

/-- A null character is read as a backslash, and all else as the scan reads it. -/
theorem singleQuoted_eq_map_unquote (cs : List Char) : singleQuoted cs = (unquote cs).map restore := by
  unfold singleQuoted
  fun_induction unquote cs with
  | case1 cs ih =>
    rw [replacePair_cons_cons, replacePair_cons_of_ne (by decide), map_cons, ih]
    rfl
  | case2 cs ih =>
    rw [replacePair_cons (by simp), replacePair_cons_of_ne (x := '\'') (by decide), replacePair_cons_cons,
      map_cons, ih]
    rfl
  | case3 c cs hbackslash hquote ih =>
    have hfirst : c = '\\' → cs.head? ≠ some '\\' := by
      rintro rfl hcs
      obtain ⟨rest, rfl⟩ := head?_eq_some_iff.mp hcs
      exact hbackslash rest rfl rfl
    have hsecond : c = '\\' → (replacePair '\\' '\\' '\x00' cs).head? ≠ some '\'' := by
      intro hc hcs
      rw [head?_replacePair (hfirst hc)] at hcs
      obtain ⟨rest, rfl⟩ := head?_eq_some_iff.mp hcs
      exact hquote rest hc rfl
    rw [replacePair_cons hfirst, replacePair_cons hsecond, map_cons, ih, map_cons]
  | case4 => rfl

theorem null_mem_unquote (cs : List Char) : '\x00' ∈ unquote cs ↔ '\x00' ∈ cs := by
  fun_induction unquote cs <;> simp_all

theorem unquote_quote (cs : List Char) : unquote (quote cs) = cs := by
  induction cs with
  | nil => rfl
  | cons c cs ih =>
    rw [quote, flatMap_cons, ← quote]
    split
    · next h => rcases h with rfl | rfl <;> simp [unquote, ih]
    · next h =>
      rw [not_or] at h
      rw [singleton_append, unquote, ih]
      · rintro rest rfl
        exact absurd rfl h.1
      · rintro rest rfl
        exact absurd rfl h.1

theorem map_restore_eq_self_iff : cs.map restore = cs ↔ '\x00' ∉ cs := by
  induction cs with
  | nil => simp
  | cons c cs ih =>
    rw [map_cons, cons_eq_cons, ih, mem_cons, not_or, restore]
    refine and_congr_left fun _ => ?_
    split
    · next h => simp [h]
    · next h => simp [Ne.symm h]

/-- Null characters become backslashes, and apart from that a text in single quotes is read as by one scan. So
it is read right, and a quoted text comes back, just if there is no null character. -/
theorem single_quotes_are_read_by_scan (cs : List Char) :
    singleQuoted cs = (unquote cs).map restore ∧
    (singleQuoted cs = unquote cs ↔ '\x00' ∉ cs) ∧
    (singleQuoted (quote cs) = cs ↔ '\x00' ∉ cs) := by
  refine ⟨singleQuoted_eq_map_unquote cs, ?_, ?_⟩
  · rw [singleQuoted_eq_map_unquote, map_restore_eq_self_iff, null_mem_unquote]
  · rw [singleQuoted_eq_map_unquote, unquote_quote, map_restore_eq_self_iff]

/-- A null character is taken for an escaped backslash. -/
theorem null_is_read_as_backslash :
    singleQuoted ['\x00'] = ['\\'] ∧ unquote ['\x00'] = ['\x00'] ∧ quote ['\x00'] = ['\x00'] := by
  decide

end PhpFlow.Literal
