import StackScript.Proofs.Boundary
import StackScript.Proofs.Source.Bytes
import StackScript.Proofs.Token.Places
import StackScript.Source.LineTable

/-!
# Looking up places in a line table

A line begins at the start of the text and behind every line feed.  A look-up finds the
last line that begins at or before an offset, so it counts the line feeds before the offset
and the bytes behind the last of them, for every byte of the text and for every offset behind
its end (`locate_offset`).  Places are in the order of offsets (`locate_precedes`).
-/

namespace StackScript

/-- The place of the byte behind a part of a text. -/
def Position.behind (before : List Char) : Position where
  line := 1 + before.count '\n'
  column := 1 + Token.byteLength (before.rtakeWhile (· != '\n'))

/-- Where the last line of some bytes begins. -/
def lastStart (bytes : List UInt8) : Nat := (bytes.rdropWhile (· != lineFeed)).length

/-- The place of an offset into some bytes; offsets behind the end are on the last line. -/
def Position.ofOffset (bytes : List UInt8) (offset : Nat) : Position where
  line := 1 + (bytes.take offset).count lineFeed
  column := 1 + offset - lastStart (bytes.take offset)

/-- A place stands before another one. -/
def Position.Precedes (p q : Position) : Prop :=
  p.line < q.line ∨ p.line = q.line ∧ p.column < q.column

namespace LineTable

open Token (byteLength)

/-- Offsets at which lines begin: the start of the text, and behind every line feed. -/
def lineStarts (bytes : List UInt8) : List Nat := 0 :: bytes.idxsOf lineFeed 1

section

variable (bytes : List UInt8)

theorem length_lineStarts : (lineStarts bytes).length = bytes.count lineFeed + 1 := by
  rw [lineStarts, List.length_cons, List.length_idxsOf]

theorem count_lt_length : bytes.count lineFeed < (lineStarts bytes).length := by
  rw [length_lineStarts]
  exact Nat.lt_succ_self _

theorem lineStarts_append (front back : List UInt8) :
    lineStarts (front ++ back) = lineStarts front ++ back.idxsOf lineFeed (1 + front.length) := by
  rw [lineStarts, List.idxsOf_append, lineStarts, List.cons_append]

theorem sorted_lineStarts : (lineStarts bytes).Pairwise (· < ·) := by
  apply List.pairwise_cons.mpr
  exact ⟨fun start mem => List.ge_of_mem_idxsOf start mem, List.pairwise_idxsOf⟩

theorem lastStart_le : lastStart bytes ≤ bytes.length :=
  (List.rdropWhile_prefix _ bytes).length_le

/-- The last line that begins in some bytes begins behind their last line feed. -/
theorem getElem_lineStarts :
    (lineStarts bytes)[bytes.count lineFeed]? = some (lastStart bytes) := by
  induction bytes using List.reverseRecOn with
  | nil => rfl
  | append_singleton bytes b ih =>
      rw [lineStarts_append, lastStart, List.rdropWhile_concat, List.count_append]
      by_cases feed : b = lineFeed
      · subst feed
        rw [List.count_singleton_self, ← length_lineStarts]
        simp [Nat.add_comm]
      · have more : (b != lineFeed) = true := bne_iff_ne.mpr feed
        have none : [b].count lineFeed = 0 := List.count_eq_zero.mpr (by simpa using Ne.symm feed)
        rw [if_pos more, none, Nat.add_zero, List.getElem?_append_left (count_lt_length bytes), ih,
          lastStart]

/-- The lines that begin up to an offset are those begun by the line feeds before it. -/
theorem countP_lineStarts (offset : Nat) :
    (lineStarts bytes).countP (· ≤ offset) = (bytes.take offset).count lineFeed + 1 := by
  have first : (lineStarts (bytes.take offset)).countP (· ≤ offset) =
      (lineStarts (bytes.take offset)).length := by
    apply List.countP_eq_length.mpr
    intro start mem
    rw [decide_eq_true_eq]
    rcases List.mem_cons.mp mem with rfl | later
    · exact Nat.zero_le _
    · have := List.lt_add_of_mem_idxsOf start later
      have := bytes.length_take_le offset
      omega
  have others : ((bytes.drop offset).idxsOf lineFeed (1 + (bytes.take offset).length)).countP
      (· ≤ offset) = 0 := by
    apply List.countP_eq_zero.mpr
    intro start mem
    have low := List.ge_of_mem_idxsOf start mem
    have high := List.lt_add_of_mem_idxsOf start mem
    rw [List.length_take] at low high
    rw [List.length_drop] at high
    rw [decide_eq_true_eq]
    omega
  calc (lineStarts bytes).countP (· ≤ offset)
      = (lineStarts (bytes.take offset ++ bytes.drop offset)).countP (· ≤ offset) := by
        rw [List.take_append_drop]
    _ = (lineStarts (bytes.take offset)).countP (· ≤ offset) + 0 := by
        rw [lineStarts_append, List.countP_append, others]
    _ = (bytes.take offset).count lineFeed + 1 := by rw [Nat.add_zero, first, length_lineStarts]

/-- So the last of them begins behind the last line feed before the offset. -/
theorem getElem_lineStarts_take (offset : Nat) :
    (lineStarts bytes)[(bytes.take offset).count lineFeed]? =
      some (lastStart (bytes.take offset)) := by
  have split := lineStarts_append (bytes.take offset) (bytes.drop offset)
  rw [List.take_append_drop] at split
  rw [split, List.getElem?_append_left (count_lt_length _), getElem_lineStarts]

end

/-! ## Tables of texts -/

theorem starts_collect (rest : List Char) (offset start : Nat) (reversed : List Char)
    (done : Array Line) :
    (collect rest offset start reversed done).toList.map Line.start =
      done.toList.map Line.start ++ start :: (utf8 rest).idxsOf lineFeed (offset + 1) := by
  induction rest generalizing offset start reversed done with
  | nil => simp [collect, lineOfReverse]
  | cons c rest ih =>
      rw [utf8_cons, List.idxsOf_append, String.length_utf8EncodeChar]
      unfold collect
      by_cases feed : c = '\n'
      · subst feed
        have width : '\n'.utf8Size = 1 := rfl
        rw [if_pos rfl, ih, encode_lineFeed, width]
        simp [lineOfReverse, List.idxsOf_cons]
      · have none : (String.utf8EncodeChar c).idxsOf lineFeed (offset + 1) = [] := by
          apply List.idxsOf_eq_nil_iff.mpr
          intro b mem
          rw [beq_eq_false_iff_ne]
          rintro rfl
          exact lineFeed_not_mem_encode feed mem
        rw [if_neg feed, ih, none, List.nil_append, Nat.add_right_comm]

/-- Where the lines of a text begin. -/
theorem starts_ofString (text : String) :
    (ofString text).lines.toList.map Line.start = lineStarts (utf8 text.toList) :=
  starts_collect text.toList 0 0 [] #[]

theorem startAt_ofString (text : String) (index : Nat) :
    (ofString text).startAt index = ((lineStarts (utf8 text.toList))[index]?).getD 0 := by
  rw [startAt, ← starts_ofString, List.getElem?_map, Array.getElem?_toList]

theorem size_ofString (text : String) :
    (ofString text).lines.size = (lineStarts (utf8 text.toList)).length := by
  rw [← starts_ofString, List.length_map, Array.length_toList]

/-- A look-up counts the line feeds before the offset, and the bytes behind the last of them. -/
theorem locate_offset (text : String) (offset : Nat) :
    (ofString text).locate offset = .ofOffset (utf8 text.toList) offset := by
  have leading : Leading (· ≤ offset) (lineStarts (utf8 text.toList)) := by
    apply (sorted_lineStarts _).imp
    intro a b less
    simp only [decide_eq_true_eq]
    omega
  have found : boundary (fun i => (ofString text).startAt i ≤ offset) 0
      (ofString text).lines.size = ((utf8 text.toList).take offset).count lineFeed + 1 := by
    rw [size_ofString, boundary_eq_countP leading, countP_lineStarts]
    intro i lt
    rw [startAt_ofString, List.getElem?_eq_getElem lt, Option.getD_some]
  have start : (ofString text).startAt (((utf8 text.toList).take offset).count lineFeed) =
      lastStart ((utf8 text.toList).take offset) := by
    rw [startAt_ofString, getElem_lineStarts_take, Option.getD_some]
  have before : lastStart ((utf8 text.toList).take offset) ≤ offset :=
    (lastStart_le _).trans (List.length_take_le ..)
  unfold locate
  dsimp only
  rw [found, Nat.add_sub_cancel, start, Position.ofOffset, Position.mk.injEq]
  omega

/-- Later offsets have later places. -/
theorem locate_precedes (text : String) {a b : Nat} (less : a < b) :
    ((ofString text).locate a).Precedes ((ofString text).locate b) := by
  rw [locate_offset, locate_offset]
  generalize utf8 text.toList = bytes
  have fewer : (bytes.take a).count lineFeed ≤ (bytes.take b).count lineFeed :=
    (List.take_sublist_take_left (Nat.le_of_lt less)).count_le lineFeed
  unfold Position.Precedes Position.ofOffset
  dsimp only
  by_cases same : (bytes.take a).count lineFeed = (bytes.take b).count lineFeed
  · -- no line feed in between, so both are on the line that begins at one place
    have start := getElem_lineStarts_take bytes a
    rw [same, getElem_lineStarts_take, Option.some_inj] at start
    have before : lastStart (bytes.take a) ≤ a := (lastStart_le _).trans (List.length_take_le ..)
    right
    omega
  · left
    omega

/-- The place of the byte behind any part of a text. -/
theorem locate_ofString {text : String} {before after : List Char}
    (split : text.toList = before ++ after) :
    (ofString text).locate (byteLength before) = Position.behind before := by
  have part := take_utf8 before after
  rw [← split] at part
  have length := congrArg List.length
    (List.rdropWhile_append_rtakeWhile (p := (· != lineFeed)) (l := utf8 before))
  rw [List.length_append, rtakeWhile_utf8, length_utf8, length_utf8] at length
  rw [locate_offset, Position.ofOffset, part, count_utf8, Position.behind, Position.mk.injEq,
    lastStart]
  omega

end LineTable
end StackScript
