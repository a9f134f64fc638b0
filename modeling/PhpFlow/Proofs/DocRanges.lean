import Mathlib.Data.List.Induction
import PhpFlow.Concrete.Basic
import PhpFlow.Proofs.DocTypes

/-!
# The ranges of doc comments

What is left of a line without its marks still stands in the comment, and the range of an entry is where it
stands, with one byte for every character. So the range is right just if no character up to the end of the
entry takes more bytes.
-/
namespace PhpFlow

open List

/-! ## Points -/

/-- The point reached from `p` after characters or bytes, of which those in a new line are marked. -/
def Point.advance (p : Point) : List Bool → Point
  | [] => p
  | isNewline :: rest => advance (if isNewline then ⟨p.row + 1, 0⟩ else ⟨p.row, p.column + 1⟩) rest

namespace Point

variable (p : Point)

theorem advance_append (x y : List Bool) : p.advance (x ++ y) = (p.advance x).advance y := by
  induction x generalizing p with
  | nil => rfl
  | cons b x ih => exact ih _

theorem advance_of_not_mem {x : List Bool} (h : true ∉ x) : p.advance x = ⟨p.row, p.column + x.length⟩ := by
  induction x generalizing p with
  | nil => rfl
  | cons b x ih =>
    obtain ⟨hb, hx⟩ := not_or.mp (mem_cons.not.mp h)
    cases b with
    | true => exact absurd rfl hb
    | false =>
      rw [advance, ih _ hx]
      simp [Nat.add_assoc, Nat.add_comm 1]

end Point

theorem SourceText.point_eq_advance (s : SourceText) (offset : Nat) :
    s.point offset = Point.advance ⟨0, 0⟩ ((s.bytes.take offset).map (· == 10)) := by
  rw [point]
  generalize s.bytes.take offset = bs
  induction bs using List.reverseRecOn with
  | nil => rfl
  | append_singleton bs b ih =>
    rw [map_append, Point.advance_append, ← ih]
    by_cases hb : b = 10
    · simp [hb, Point.advance]
    · simp [hb, Point.advance]

def newlines (cs : List Char) : List Bool := cs.map (· = '\n')

theorem newlines_append (x y : List Char) : newlines (x ++ y) = newlines x ++ newlines y := map_append

theorem advance_newlines (p : Point) {cs : List Char} (h : '\n' ∉ cs) :
    p.advance (newlines cs) = ⟨p.row, p.column + cs.length⟩ := by
  rw [p.advance_of_not_mem (by simpa [newlines] using h), newlines, length_map]

def Range.after (base : Range) (before content : List Char) : Range :=
  let start := base.start.advance (newlines before)
  let startByte := base.startByte + before.length
  ⟨start, start.advance (newlines content), startByte, startByte + content.length⟩

/-! ## Bytes -/

namespace Text

theorem bytes_append (x y : String) : bytes (x ++ y) = bytes x ++ bytes y := by
  simp [bytes]

theorem bytes_ofList (cs : List Char) :
    bytes (String.ofList cs) = cs.flatMap String.utf8EncodeChar := by
  simp [bytes, List.utf8Encode]

theorem length_bytes_ofList (cs : List Char) :
    cs.length ≤ (bytes (String.ofList cs)).length ∧
      ((bytes (String.ofList cs)).length = cs.length ↔ ∀ c ∈ cs, c.utf8Size = 1) := by
  rw [bytes_ofList]
  induction cs with
  | nil => simp
  | cons c cs ih =>
    have hpos := c.utf8Size_pos
    rw [flatMap_cons, length_append, String.length_utf8EncodeChar, length_cons, forall_mem_cons, ← ih.2]
    omega

theorem newlines_bytes {cs : List Char} (h : ∀ c ∈ cs, c.utf8Size = 1) :
    (bytes (String.ofList cs)).map (· == 10) = newlines cs := by
  rw [bytes_ofList]
  induction cs with
  | nil => rfl
  | cons c cs ih =>
    obtain ⟨hc, hcs⟩ := forall_mem_cons.mp h
    rw [flatMap_cons, String.utf8EncodeChar_eq_singleton hc, map_append, ih hcs]
    have hcode : c.val.toNat ≤ 127 := UInt32.le_iff_toNat_le.mp (Char.utf8Size_eq_one_iff.mp hc)
    have hnewline : (c.val.toUInt8 == 10) = decide (c = '\n') := by
      rw [Bool.eq_iff_iff, beq_iff_eq, decide_eq_true_iff, Char.ext_iff, ← UInt8.toNat_inj,
        ← UInt32.toNat_inj, UInt32.toNat_toUInt8, Nat.mod_eq_of_lt (by omega)]
      rfl
    rw [map_singleton, singleton_append, hnewline]
    rfl

end Text

namespace DocLine

variable {base : Range} {r : Range} {content cs : List Char} {ls : List (List Char)}

theorem exists_append_dropWhile (p : Char → Bool) (cs : List Char) :
    ∃ front, front.length = cs.length - (cs.dropWhile p).length ∧ front ++ cs.dropWhile p = cs := by
  have hcs := takeWhile_append_dropWhile (p := p) (l := cs)
  refine ⟨cs.takeWhile p, ?_, hcs⟩
  have hlength := congrArg List.length hcs
  rw [length_append] at hlength
  omega

theorem exists_append_dropMark (isFirst : Bool) (cs : List Char) :
    ∃ front, front.length = (dropMark isFirst cs).1 ∧ front ++ (dropMark isFirst cs).2 = cs := by
  unfold dropMark
  split
  · exact ⟨['/', '*', '*'], rfl, rfl⟩
  · exact ⟨[], rfl, rfl⟩
  · exact ⟨['*'], rfl, rfl⟩
  · exact ⟨[], rfl, rfl⟩

theorem dropEndMark_prefix (cs : List Char) : dropEndMark cs <+: cs := by
  unfold dropEndMark
  split
  · next rest heq =>
    have hfirst := dropEnd_prefix Text.isBlank cs
    rw [reverse_eq_iff.mp heq, reverse_cons, reverse_cons, append_assoc] at hfirst
    exact (prefix_append _ _).trans hfirst
  · exact prefix_rfl

/-- What is left of a line stands in it, at the column. -/
theorem exists_undecorate (isFirst : Bool) (raw : List Char) :
    ∃ front, front.length = (undecorate isFirst raw).1 ∧ front ++ (undecorate isFirst raw).2 <+: raw := by
  unfold undecorate
  dsimp only
  have hend := dropEnd_prefix (· = '\r') raw
  generalize Text.dropEnd (· = '\r') raw = line at hend ⊢
  obtain ⟨indent, hindent, hline⟩ := exists_append_dropWhile Text.isBlank line
  generalize line.dropWhile Text.isBlank = body at hindent hline ⊢
  obtain ⟨mark, hmark, hbody⟩ := exists_append_dropMark isFirst body
  generalize dropMark isFirst body = marked at hmark hbody ⊢
  have hmarked := dropEndMark_prefix marked.2
  generalize dropEndMark marked.2 = rest at hmarked ⊢
  obtain ⟨gap, hgap, hrest⟩ := exists_append_dropWhile Text.isBlank rest
  refine ⟨indent ++ (mark ++ gap), ?_, ?_⟩
  · rw [length_append, length_append, hindent, hmark, hgap, Nat.add_assoc]
  · have hcontent : gap ++ Text.dropEnd Text.isBlank (rest.dropWhile Text.isBlank) <+: marked.2 := by
      refine List.IsPrefix.trans ?_ (hrest ▸ hmarked)
      rw [prefix_append_right_inj]
      exact dropEnd_prefix ..
    refine List.IsPrefix.trans ?_ hend
    rw [← hline, ← hbody, append_assoc, append_assoc, prefix_append_right_inj, prefix_append_right_inj]
    exact hcontent

theorem lines_ne_nil (cs : List Char) : lines cs ≠ [] := by
  fun_cases lines cs <;> simp

theorem intercalate_lines (cs : List Char) : ['\n'].intercalate (lines cs) = cs := by
  fun_induction lines cs with
  | case1 => rfl
  | case2 cs ih => rw [intercalate_cons_of_ne_nil (lines_ne_nil cs), ih]; rfl
  | case3 c cs _ hnil => exact absurd hnil (lines_ne_nil cs)
  | case4 c cs _ l ls heq ih =>
    rw [heq] at ih
    rw [intercalate_cons_cons_left, ih]

theorem newline_not_mem_of_mem_lines (cs : List Char) : ∀ l ∈ lines cs, '\n' ∉ l := by
  fun_induction lines cs with
  | case1 => simp
  | case2 cs ih => simpa using ih
  | case3 c cs _ hnil => exact absurd hnil (lines_ne_nil cs)
  | case4 c cs hc l ls heq ih =>
    rw [heq] at ih
    simpa [Ne.symm hc] using ih

/-- Every line is where it stands in the text, with one byte for every character. The lines before it are
`before`, with their newlines. -/
theorem exists_of_mem_contents {index offset : Nat} (before : List Char) (hls : ∀ l ∈ ls, '\n' ∉ l)
    (hoffset : offset = base.startByte + before.length) (hstart : base.start.advance (newlines before) =
      ⟨base.start.row + index, if index = 0 then base.start.column else 0⟩)
    (h : (content, r) ∈ contents base index offset ls) :
    ∃ front, front ++ content <+: ['\n'].intercalate ls ∧ '\n' ∉ content ∧
      r = base.after (before ++ front) content := by
  induction ls generalizing index offset before with
  | nil => cases h
  | cons raw rest ih =>
    obtain ⟨hraw, hrest⟩ := forall_mem_cons.mp hls
    obtain ⟨front, hfront, hfirst⟩ := exists_undecorate (index = 0) raw
    rw [contents] at h
    generalize undecorate (index = 0) raw = line at hfront hfirst h
    rcases mem_cons.mp h with heq | h
    · have hmem : '\n' ∉ front ++ line.2 := fun hmem => hraw (hfirst.subset hmem)
      rw [mem_append, not_or] at hmem
      cases heq
      refine ⟨front, ?_, hmem.2, ?_⟩
      · cases rest with
        | nil => rwa [intercalate_singleton]
        | cons next rest =>
          rw [intercalate_cons_cons, append_assoc]
          exact hfirst.trans (prefix_append _ _)
      · rw [Range.after, newlines_append, Point.advance_append, hstart, advance_newlines _ hmem.1]
        dsimp only
        rw [advance_newlines _ hmem.2, hoffset, length_append, hfront]
        simp only [Nat.add_assoc, Nat.add_comm, Nat.add_left_comm]
    · have hne : rest ≠ [] := by
        rintro rfl
        cases h
      obtain ⟨front, hfirst, hcontent, hr⟩ := ih (before ++ (raw ++ ['\n'])) hrest (by
        simp [hoffset, Nat.add_assoc]) (by
        rw [newlines_append, Point.advance_append, hstart, newlines_append, Point.advance_append,
          advance_newlines _ hraw]
        rfl) h
      refine ⟨raw ++ ['\n'] ++ front, ?_, hcontent, by simpa using hr⟩
      rw [intercalate_cons_of_ne_nil hne, append_assoc, prefix_append_right_inj]
      exact hfirst

theorem range_of_entry? {line : List Char × Range} {e : DocEntry} (h : entry? line = some e) :
    e.range = line.2 := by
  unfold entry? at h
  split at h
  · cases h
  · split at h <;> cases h <;> rfl

end DocLine

namespace SourceText

variable {source : SourceText} {x : String} {cs : List Char}

theorem point_eq_of_first (h : Text.bytes x <+: source.bytes) :
    source.point (Text.bytes x).length = Point.advance ⟨0, 0⟩ ((Text.bytes x).map (· == 10)) := by
  rw [point_eq_advance, ← prefix_iff_eq_take.mp h]

theorem point_append (h : Text.bytes (x ++ String.ofList cs) <+: source.bytes)
    (hsmall : ∀ c ∈ cs, c.utf8Size = 1) :
    source.point (Text.bytes (x ++ String.ofList cs)).length =
      (source.point (Text.bytes x).length).advance (newlines cs) := by
  have hx : Text.bytes x <+: source.bytes := by
    rw [Text.bytes_append] at h
    exact (prefix_append _ _).trans h
  rw [point_eq_of_first h, point_eq_of_first hx, Text.bytes_append, map_append, Point.advance_append,
    Text.newlines_bytes hsmall]

end SourceText

/-- An entry says what a part of one line of the comment says. Its range counts the characters up to there
and so is the range of that part in the source just if each of them takes one byte. -/
theorem range_of_entry {pre text post : String} {source : SourceText} {base : Range} {e : DocEntry}
    (hsource : source = .ofText (pre ++ text ++ post))
    (hbase : base = source.range (Text.bytes pre).length (Text.bytes (pre ++ text)).length)
    (he : e ∈ (DocComment.ofText text base).entries) :
    ∃ before content, before ++ content <+: text.toList ∧ '\n' ∉ content ∧
      (content, e.range) ∈ DocLine.contents base 0 base.startByte (DocLine.lines text.toList) ∧
      DocLine.entry? (content, e.range) = some e ∧ e.range = base.after before content ∧
      let start := (Text.bytes (pre ++ String.ofList before)).length
      let stop := (Text.bytes (pre ++ String.ofList (before ++ content))).length
      (source.bytes.drop start).take (stop - start) = Text.bytes (String.ofList content) ∧
        (e.range = source.range start stop ↔ ∀ c ∈ before ++ content, c.utf8Size = 1) := by
  obtain ⟨⟨content, r⟩, hmem, hentry⟩ := mem_filterMap.mp he
  obtain ⟨before, hfirst, hcontent, hr⟩ := DocLine.exists_of_mem_contents []
    (DocLine.newline_not_mem_of_mem_lines text.toList) rfl rfl hmem
  rw [DocLine.intercalate_lines] at hfirst
  rw [nil_append] at hr
  have hrange : e.range = r := DocLine.range_of_entry? hentry
  refine ⟨before, content, hfirst, hcontent, hrange ▸ hmem, hrange ▸ hentry, hrange.trans hr, ?_⟩
  obtain ⟨after, htext⟩ := hfirst
  have hstop : Text.bytes (pre ++ String.ofList before ++ String.ofList content) <+: source.bytes := by
    have htext' : text = String.ofList (before ++ content ++ after) := by rw [htext, String.ofList_toList]
    refine ⟨Text.bytes (String.ofList after ++ post), ?_⟩
    simp only [hsource, htext', SourceText.ofText, String.ofList_append, Text.bytes_append, append_assoc]
  have hstart : Text.bytes (pre ++ String.ofList before) <+: source.bytes := by
    rw [Text.bytes_append _ (String.ofList content)] at hstop
    exact (prefix_append _ _).trans hstop
  rw [String.ofList_append, ← String.append_assoc]
  constructor
  · obtain ⟨rest, hrest⟩ := hstop
    rw [← hrest, Text.bytes_append _ (String.ofList content), length_append, Nat.add_sub_cancel_left,
      append_assoc, drop_left, take_left]
  · have hbefore := Text.length_bytes_ofList before
    have hcontent := Text.length_bytes_ofList content
    rw [hrange, hr, forall_mem_append]
    constructor
    · intro heq
      have hbyte := congrArg Range.stopByte heq
      rw [hbase] at hbyte
      dsimp only [Range.after, SourceText.range] at hbyte
      rw [Text.bytes_append, Text.bytes_append, length_append, length_append] at hbyte
      exact ⟨hbefore.2.mp (by omega), hcontent.2.mp (by omega)⟩
    · rintro ⟨hsmall, hsmall'⟩
      rw [hbase, Range.after, SourceText.range, SourceText.range, SourceText.point_append hstop hsmall',
        SourceText.point_append hstart hsmall]
      dsimp only
      simp only [Text.bytes_append, length_append, hbefore.2.mpr hsmall, hcontent.2.mpr hsmall']

theorem plain_comment_range :
    ∃ before content, before ++ content <+: "/** A\n * @var int */".toList ∧
      ⟨⟨2, 3⟩, ⟨2, 11⟩, 16, 24⟩ = (SourceText.ofText "<?php\n /** A\n * @var int */\n").range
        (Text.bytes ("<?php\n " ++ String.ofList before)).length
        (Text.bytes ("<?php\n " ++ String.ofList (before ++ content))).length := by
  have hplain : ∀ c ∈ "/** A\n * @var int */".toList, c.utf8Size = 1 := by simp [Char.utf8Size]
  obtain ⟨before, content, hfirst, -, -, -, -, -, hrange⟩ :=
    @range_of_entry "<?php\n " "/** A\n * @var int */" "\n" (.ofText "<?php\n /** A\n * @var int */\n")
      ⟨⟨1, 1⟩, ⟨2, 14⟩, 7, 27⟩ ⟨⟨⟨2, 3⟩, ⟨2, 11⟩, 16, 24⟩, .var "int" none ""⟩
      (congrArg SourceText.ofText (by decide)) (by decide) (by decide +kernel)
  exact ⟨before, content, hfirst, hrange.mpr fun c hc => hplain c (hfirst.subset hc)⟩

/-- An accent takes a byte that is not counted. -/
theorem accent_shifts_range :
    ∃ e ∈ (DocComment.ofText "/** \u00e9\n * @var int */" ⟨⟨0, 0⟩, ⟨1, 14⟩, 0, 21⟩).entries,
      e.tag = .var "int" none "" ∧
        ((Text.bytes "/** \u00e9\n * @var int */").drop e.range.startByte).take
          (e.range.stopByte - e.range.startByte) = Text.bytes " @var in" := by
  decide +kernel

end PhpFlow
