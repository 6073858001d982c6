import Mathlib.Data.List.Basic
import Mathlib.Data.List.TakeWhile
import ThreadLocal.Contents

/-!
Lines and columns: a later offset has a later position, so a position belongs to no other offset, and the offset is found
again from the start of the line and the column.
-/

namespace ThreadLocal

/-- An earlier line, or an earlier column of the same line. -/
def Position.Before (a b : Position) : Prop :=
  a.line < b.line ∨ a.line = b.line ∧ a.column < b.column

theorem Position.not_before_self (p : Position) : ¬ p.Before p := by
  unfold Before
  omega

namespace Bytes

/-- How many bytes stand before the last line of some bytes. -/
def lastLineStart (bytes : Bytes) : Nat :=
  bytes.length - (bytes.reverse.takeWhile (· ≠ newline)).length

theorem position_eq (content : Bytes) (offset : Int) :
    content.position offset =
      ⟨(content.take (index content.length offset)).count newline + 1,
        offset - lastLineStart (content.take (index content.length offset)) + 1⟩ :=
  rfl

/-- Bytes that end no line leave the last line where it starts. -/
theorem lastLineStart_append {more : Bytes} (h : newline ∉ more) (bytes : Bytes) :
    lastLineStart (bytes ++ more) = lastLineStart bytes := by
  have hmore : ∀ b ∈ more.reverse, decide (b ≠ newline) = true := by
    intro b hb
    exact decide_eq_true fun he => h (he ▸ List.mem_reverse.mp hb)
  unfold lastLineStart
  rw [List.reverse_append, List.takeWhile_append_of_pos hmore, List.length_append, List.length_append,
    List.length_reverse]
  omega

/-- Also past the end of the content positions ascend with the offset. -/
theorem position_before {content : Bytes} {low high : Int} (nonneg : 0 ≤ low) (h : low < high) :
    (content.position low).Before (content.position high) := by
  have hindex : index content.length low ≤ index content.length high := by
    rw [index_of_nonneg nonneg, index_of_nonneg (by omega)]
    omega
  obtain ⟨between, hbetween⟩ := List.take_prefix_take_left (l := content) hindex
  rw [position_eq, position_eq, ← hbetween, List.count_append]
  unfold Position.Before
  dsimp only
  by_cases hend : newline ∈ between
  · have hpos := List.count_pos_iff.mpr hend
    exact .inl (by omega)
  · rw [List.count_eq_zero.mpr hend, lastLineStart_append hend]
    exact .inr ⟨rfl, by omega⟩

theorem eq_of_position_eq {content : Bytes} {a b : Int} (ha : 0 ≤ a) (hb : 0 ≤ b)
    (h : content.position a = content.position b) : a = b := by
  rcases Int.lt_trichotomy a b with hlt | heq | hlt
  · exact absurd (h ▸ position_before ha hlt) (Position.not_before_self _)
  · exact heq
  · exact absurd (h ▸ position_before hb hlt) (Position.not_before_self _)

/-- The index just behind as many line ends; the first line starts at zero. -/
def lineStart (content : Bytes) : Nat → Nat
  | 0 => 0
  | ends + 1 => content.idxOfNth newline ends + 1

theorem lastLineStart_le (bytes : Bytes) : lastLineStart bytes ≤ bytes.length :=
  Nat.sub_le _ _

/-- The last line of some bytes starts at the very beginning or right behind a line end. -/
theorem exists_lastLine (bytes : Bytes) : ∃ lines last, bytes = lines ++ last ∧ newline ∉ last ∧
    lastLineStart bytes = lines.length ∧ ∀ b, lines.getLast? = some b → b = newline := by
  have hsplit := @List.takeWhile_append_dropWhile _ (· ≠ newline) bytes.reverse
  have hbytes := congrArg List.reverse hsplit
  rw [List.reverse_append, List.reverse_reverse] at hbytes
  refine ⟨(bytes.reverse.dropWhile (· ≠ newline)).reverse, _, hbytes.symm, ?_, ?_, ?_⟩
  · intro hmem
    have hne := List.mem_takeWhile_imp (List.mem_reverse.mp hmem)
    simp at hne
  · have hlength := congrArg List.length hsplit
    rw [List.length_append, List.length_reverse] at hlength
    rw [lastLineStart, List.length_reverse]
    omega
  · intro b hb
    rw [List.getLast?_reverse] at hb
    have hstop := List.head?_dropWhile_not (· ≠ newline) bytes.reverse
    rw [hb] at hstop
    simpa using hstop

theorem lineStart_behind_newline (lines rest : Bytes) :
    lineStart (lines ++ newline :: rest) (lines.count newline + 1) = lines.length + 1 := by
  have hroom : lines.length < (lines ++ newline :: rest).length := by simp
  have hend : ((lines ++ newline :: rest)[lines.length] == newline) = true := by simp
  have hindex := List.idxOfNth_countBefore_of_lt_length_of_beq hend
  rw [List.countBefore_eq_count_take, List.take_left] at hindex
  rw [lineStart, hindex]

/-- The line that starts behind all line ends of what stands before a place is the line of that place. -/
theorem lineStart_append (before rest : Bytes) :
    lineStart (before ++ rest) (before.count newline) = lastLineStart before := by
  obtain ⟨lines, last, rfl, hlast, hstart, hend⟩ := exists_lastLine before
  rw [hstart, List.count_append, List.count_eq_zero.mpr hlast, Nat.add_zero, List.append_assoc]
  rcases List.eq_nil_or_concat lines with rfl | ⟨init, b, rfl⟩
  · rfl
  · obtain rfl : b = newline := hend b (by simp)
    have hbehind := lineStart_behind_newline init (last ++ rest)
    simpa using hbehind

end Bytes

/-- What a line and a column say about an offset: the content has such a line, and the offset is the index just behind
the line end before it, moved on by the columns before. -/
structure Position.Locates (content : Bytes) (p : Position) (offset : Int) : Prop where
  line_pos : 1 ≤ p.line
  column_pos : 1 ≤ p.column
  line_present : p.line - 1 ≤ content.count Bytes.newline
  offset_eq : offset = content.lineStart (p.line - 1).toNat + (p.column - 1)

theorem Bytes.position_locates {content : Bytes} {offset : Int} (nonneg : 0 ≤ offset) :
    (content.position offset).Locates content offset := by
  obtain ⟨rest, hrest⟩ := List.take_prefix (index content.length offset) content
  have hreach : ((content.take (index content.length offset)).length : Int) ≤ offset := by
    rw [List.length_take, index_of_nonneg nonneg]
    omega
  rw [position_eq]
  generalize content.take (index content.length offset) = before at hrest hreach
  subst hrest
  have hends := (List.sublist_append_left before rest).count_le newline
  have hstart := lineStart_append before rest
  have hle := lastLineStart_le before
  have hline : ((before.count newline : Int) + 1 - 1).toNat = before.count newline := by omega
  exact {
    line_pos := by dsimp only; omega
    column_pos := by dsimp only; omega
    line_present := by dsimp only; omega
    offset_eq := by
      dsimp only
      rw [hline, hstart]
      omega }

namespace Contents

variable {known known' : Contents} {fs fs' : Files} {path path' : String} {content : Bytes}

theorem position_of_read (readable : (known.read fs path).1 = .ok content) (offset : Int) :
    (known.position fs path offset).1 = .ok (content.position offset) := by
  rcases hread : known.read fs path with ⟨outcome, after⟩
  rw [hread] at readable
  obtain rfl : outcome = .ok content := readable
  rw [position, hread]

/-- Whenever a content is read, its offsets and those past its end are reported in their order, and each of them can be
told from the line and the column reported for it. -/
theorem positions_faithful (first : (known.read fs path).1 = .ok content)
    (second : (known'.read fs' path').1 = .ok content) {low high : Int} (nonneg : 0 ≤ low) (ascending : low < high) :
    ∃ p q, (known.position fs path low).1 = .ok p ∧ (known'.position fs' path' high).1 = .ok q ∧
      p.Before q ∧ p.Locates content low ∧ q.Locates content high :=
  ⟨_, _, position_of_read first low, position_of_read second high, Bytes.position_before nonneg ascending,
    Bytes.position_locates nonneg, Bytes.position_locates (by omega)⟩

/-! A line end behind a line end, and an offset past the end of the file, which is asked for after the file is gone. -/

namespace BlankLine

def text : Bytes := Bytes.ofText "a\n\nb\n"

def files : Files := ⟨[(["s"], .directory), (["s", "a.c"], .file text)], []⟩

def seen : Contents := (Contents.read [] files "/s/a.c").2

end BlankLine

theorem blankLine_positions_faithful :
    (Contents.read [] BlankLine.files "/s/a.c").1 = .ok BlankLine.text ∧
      (BlankLine.seen.read ⟨[], []⟩ "/s/a.c").1 = .ok BlankLine.text ∧
      (Contents.position [] BlankLine.files "/s/a.c" 2).1 = .ok ⟨2, 1⟩ ∧
      (BlankLine.seen.position ⟨[], []⟩ "/s/a.c" 9).1 = .ok ⟨4, 5⟩ ∧ Position.Before ⟨2, 1⟩ ⟨4, 5⟩ ∧
      Position.Locates BlankLine.text ⟨2, 1⟩ 2 ∧ Position.Locates BlankLine.text ⟨4, 5⟩ 9 := by
  have hfirst : (Contents.read [] BlankLine.files "/s/a.c").1 = .ok BlankLine.text := by rfl
  have hsecond : (BlankLine.seen.read ⟨[], []⟩ "/s/a.c").1 = .ok BlankLine.text := by rfl
  have hlow : (Contents.position [] BlankLine.files "/s/a.c" 2).1 = .ok ⟨2, 1⟩ := by rfl
  have hhigh : (BlankLine.seen.position ⟨[], []⟩ "/s/a.c" 9).1 = .ok ⟨4, 5⟩ := by rfl
  obtain ⟨p, q, hp, hq, hbefore, hplow, hqhigh⟩ :=
    @positions_faithful [] BlankLine.seen BlankLine.files ⟨[], []⟩ "/s/a.c" "/s/a.c" _ hfirst hsecond 2 9
      (by decide) (by decide)
  obtain rfl := Except.ok.inj (hlow.symm.trans hp)
  obtain rfl := Except.ok.inj (hhigh.symm.trans hq)
  exact ⟨hfirst, hsecond, hlow, hhigh, hbefore, hplow, hqhigh⟩

end Contents
end ThreadLocal
