import StackScript.Proofs.Source.LineTable
import StackScript.Proofs.Token.Tiling

/-!
# What the lines of a text say

The lines of a text are the pieces between its line feeds, each without the carriage returns
at its end (`lineText_ofString`).  A line goes from where the table says that it begins to
where the next one does, and there a character begins in both places (`cuts_lineSpan`).
-/

namespace StackScript

section Pieces

variable {α : Type} [BEq α] [LawfulBEq α] {a : α}

theorem length_splitOn (items : List α) : (items.splitOn a).length = items.count a + 1 := by
  induction items with
  | nil => simp
  | cons b items ih =>
      rw [List.splitOn_cons_eq_if_modifyHead]
      by_cases same : b = a
      · simp [same, ih]
      · simp [same, ih, List.count_cons_of_ne same]

/-- The first piece of a list goes on to the first separator. -/
theorem getElem_splitOn_zero (items : List α) :
    (items.splitOn a)[0]? = some (items.takeWhile (· != a)) := by
  induction items with
  | nil => simp
  | cons b items ih =>
      rw [List.splitOn_cons_eq_if_modifyHead]
      by_cases same : b = a
      · simp [same]
      · rw [if_neg (by simpa using same), List.getElem?_modifyHead, if_pos rfl, ih, Option.map_some]
        simp [same]

/-- The piece around any place of a list. -/
theorem getElem_splitOn_count (before rest : List α) :
    ((before ++ rest).splitOn a)[before.count a]? =
      some (before.rtakeWhile (· != a) ++ rest.takeWhile (· != a)) := by
  induction before using List.reverseRecOn generalizing rest with
  | nil => exact getElem_splitOn_zero rest
  | append_singleton before b ih =>
      rw [List.append_assoc, List.singleton_append, List.count_append, List.rtakeWhile_concat]
      by_cases same : b = a
      · -- the piece is the first one behind this separator
        subst same
        rw [List.splitOn_append_cons_self, List.count_singleton_self, ← length_splitOn,
          List.getElem?_append_right (Nat.le_refl _), Nat.sub_self, getElem_splitOn_zero]
        simp
      · have more : (b != a) = true := bne_iff_ne.mpr same
        have none : [b].count a = 0 := List.count_eq_zero.mpr (by simpa using Ne.symm same)
        rw [none, Nat.add_zero, ih, if_pos more, List.append_assoc, List.singleton_append]
        simp [same]

/-- Before every piece there is a part of the list that ends with a separator. -/
theorem exists_before_piece {items : List α} {k : Nat} (le : k ≤ items.count a) :
    ∃ before rest, items = before ++ rest ∧ before.count a = k ∧
      before.rtakeWhile (· != a) = [] := by
  induction k with
  | zero => exact ⟨[], items, rfl, rfl, rfl⟩
  | succ k ih =>
      obtain ⟨before, rest, rfl, count, -⟩ := ih (Nat.le_of_succ_le le)
      rw [List.count_append, count] at le
      have separator : a ∈ rest := List.count_pos_iff.mp (by omega)
      obtain ⟨piece, rest, rfl, inside⟩ := List.eq_append_cons_of_mem separator
      refine ⟨before ++ (piece ++ [a]), rest, by simp, ?_, ?_⟩
      · rw [List.count_append, List.count_append, count, List.count_eq_zero.mpr inside,
          List.count_singleton_self]
      · rw [← List.append_assoc, List.rtakeWhile_concat]
        simp

/-- Every piece stands between a part that ends with a separator, or nothing, and a separator,
or nothing. -/
theorem exists_piece {items : List α} {k : Nat} (le : k ≤ items.count a) :
    ∃ before piece feed after, items = before ++ (piece ++ feed) ++ after ∧ before.count a = k ∧
      before.rtakeWhile (· != a) = [] ∧ a ∉ piece ∧ (items.splitOn a)[k]? = some piece ∧
        (feed = [a] ∨ feed = [] ∧ after = []) := by
  obtain ⟨before, rest, split, count, whole⟩ := exists_before_piece le
  have found := getElem_splitOn_count (a := a) before rest
  rw [← split, count, whole, List.nil_append] at found
  by_cases more : a ∈ rest
  · obtain ⟨piece, after, rfl, inside⟩ := List.eq_append_cons_of_mem more
    have piece_eq : (piece ++ a :: after).takeWhile (· != a) = piece := by
      rw [List.takeWhile_append_of_pos (forall_bne inside)]
      simp
    rw [piece_eq] at found
    exact ⟨before, piece, [a], after, by simp [split], count, whole, inside, found, .inl rfl⟩
  · rw [List.takeWhile_eq_self_iff.mpr (forall_bne more)] at found
    exact ⟨before, rest, [], [], by simp [split], count, whole, more, found, .inr ⟨rfl, rfl⟩⟩

end Pieces

/-- What a line says: its characters without the carriage returns at its end. -/
def trimmed (line : List Char) : List Char := line.rdropWhile (· == '\r')

namespace LineTable

open Token (byteLength)

theorem texts_collect (rest : List Char) (offset start : Nat) (reversed : List Char)
    (done : Array Line) :
    (collect rest offset start reversed done).toList.map Line.text = done.toList.map Line.text ++
      (List.splitOnPPrepend (· == '\n') rest reversed).map fun line => String.ofList (trimmed line) := by
  induction rest generalizing offset start reversed done with
  | nil => simp [collect, lineOfReverse, trimmed, List.rdropWhile]
  | cons c rest ih =>
      rw [List.splitOnPPrepend_cons_eq_if]
      unfold collect
      by_cases feed : c = '\n'
      · rw [if_pos feed, ih, if_pos (by simpa using feed), List.splitOnPPrepend_nil_right]
        simp [lineOfReverse, trimmed, List.rdropWhile]
      · rw [if_neg feed, ih, if_neg (by simpa using feed)]

/-- The lines of a text are the pieces between its line feeds. -/
theorem lineText_ofString (text : String) (index : Nat) :
    (ofString text).lineText (index + 1) =
      (((text.toList.splitOn '\n')[index]?).map fun line => String.ofList (trimmed line)).getD "" := by
  have texts := texts_collect text.toList 0 0 [] #[]
  rw [List.splitOnPPrepend_nil_right, ← List.splitOn_eq_splitOnP] at texts
  rw [lineText, ← Array.getElem?_toList, ← List.getElem?_map, ofString, texts]
  simp

/-- The line around any place of a text. -/
theorem lineText_behind {text : String} {before rest : List Char}
    (split : text.toList = before ++ rest) :
    (ofString text).lineText (Position.behind before).line = String.ofList
      (trimmed (before.rtakeWhile (· != '\n') ++ rest.takeWhile (· != '\n'))) := by
  rw [Position.behind, Nat.add_comm, lineText_ofString, split, getElem_splitOn_count,
    Option.map_some, Option.getD_some]

/-- The bytes of a line and its line feed: up to where the next line begins, or to the end. -/
def lineSpan (table : LineTable) (text : String) (number : Nat) : Span where
  start := table.startAt (number - 1)
  stop := if number < table.lines.size then table.startAt number else text.utf8ByteSize

/-- A line that begins behind a part of a text begins at the end of its bytes. -/
theorem startAt_count {text : String} {before rest : List Char}
    (split : text.toList = before ++ rest) (whole : before.rtakeWhile (· != '\n') = []) :
    (ofString text).startAt (before.count '\n') = byteLength before := by
  have part := take_utf8 before rest
  rw [← split] at part
  have all := List.rdropWhile_append_rtakeWhile (p := (· != lineFeed)) (l := utf8 before)
  rw [rtakeWhile_utf8, whole, utf8_nil, List.append_nil] at all
  rw [startAt_ofString, ← count_utf8, ← part, getElem_lineStarts_take, Option.getD_some, part,
    lastStart, all, length_utf8]

/-- The bytes of a line are those of a piece of the text and of the line feed behind it. -/
theorem cuts_lineSpan {text : String} {index : Nat} (le : index ≤ text.toList.count '\n') :
    ∃ before line feed after, (text.toList.splitOn '\n')[index]? = some line ∧
      ((ofString text).lineSpan text (index + 1)).Cuts text before (line ++ feed) after ∧
        (feed = ['\n'] ∨ feed = [] ∧ after = []) := by
  obtain ⟨before, line, feed, after, split, count, whole, inside, found, ending⟩ := exists_piece le
  have start : (ofString text).startAt index = byteLength before := by
    rw [← count]
    exact startAt_count (split.trans (List.append_assoc ..)) whole
  have stop : ((ofString text).lineSpan text (index + 1)).stop =
      byteLength (before ++ (line ++ feed)) := by
    have size : (ofString text).lines.size = text.toList.count '\n' + 1 := by
      rw [size_ofString, length_lineStarts, count_utf8]
    have none := List.count_eq_zero.mpr inside
    rw [split] at size
    simp only [List.count_append, count, none] at size
    unfold lineSpan
    dsimp only
    rcases ending with rfl | ⟨rfl, rfl⟩
    · -- the next line begins behind the line feed
      have next : (before ++ (line ++ ['\n'])).rtakeWhile (· != '\n') = [] := by
        rw [← List.append_assoc, List.rtakeWhile_concat]
        simp
      have lines : (before ++ (line ++ ['\n'])).count '\n' = index + 1 := by
        simp [List.count_append, count, none]
      rw [List.count_singleton_self] at size
      rw [if_pos (by omega), ← lines]
      exact startAt_count split next
    · rw [List.count_nil] at size
      rw [if_neg (by omega), ← byteLength_toList, split, List.append_nil]
  exact ⟨before, line, feed, after, found, ⟨split, start, stop⟩, ending⟩

/-- A line table tells the place of every byte of a text, and of every offset behind its end:
its line counts the line feeds before it, and its column the bytes behind the last of these.
Later offsets have later places.  For every line, the table tells the piece between two line
feeds without the carriage returns at its end, and the piece begins and ends at a character. -/
theorem tells_places_and_lines (text : String) :
    (∀ offset, (ofString text).locate offset = .ofOffset text.toUTF8.data.toList offset) ∧
      (∀ a b, a < b → ((ofString text).locate a).Precedes ((ofString text).locate b)) ∧
      ∀ index ≤ text.toList.count '\n', ∃ line, (text.toList.splitOn '\n')[index]? = some line ∧
        (ofString text).lineText (index + 1) = String.ofList (trimmed line) ∧
        ∃ span before feed after, (ofString text).lineSpan text (index + 1) = span ∧
          span.Cuts text before (line ++ feed) after ∧ (feed = ['\n'] ∨ feed = [] ∧ after = []) ∧
          String.Pos.Raw.IsValid text ⟨span.start⟩ ∧ String.Pos.Raw.IsValid text ⟨span.stop⟩ := by
  refine ⟨fun offset => ?_, fun a b less => locate_precedes text less, fun index le => ?_⟩
  · rw [← utf8_toList]
    exact locate_offset text offset
  · obtain ⟨before, line, feed, after, found, cuts, ending⟩ := cuts_lineSpan le
    refine ⟨line, found, ?_, _, before, feed, after, rfl, cuts, ending, cuts.isValid⟩
    rw [lineText_ofString, found, Option.map_some, Option.getD_some]

/-- A text with a line that ends in a carriage return, and a letter of two bytes. -/
theorem tells_places_and_lines_sample :
    (ofString "a\r\nβ").locate 4 = ⟨2, 2⟩ ∧
      (2 < 3 ∧ ((ofString "a\r\nβ").locate 2).Precedes ((ofString "a\r\nβ").locate 3)) ∧
      0 ≤ "a\r\nβ".toList.count '\n' ∧
      ∃ line, ("a\r\nβ".toList.splitOn '\n')[0]? = some line ∧
        (ofString "a\r\nβ").lineText 1 = String.ofList (trimmed line) := by
  obtain ⟨places, order, lines⟩ := tells_places_and_lines "a\r\nβ"
  obtain ⟨line, found, told, -⟩ := lines 0 (Nat.zero_le _)
  have place : Position.ofOffset "a\r\nβ".toUTF8.data.toList 4 = ⟨2, 2⟩ := by decide
  exact ⟨(places 4).trans place, ⟨by decide, order 2 3 (by decide)⟩, Nat.zero_le _, line, found, told⟩

end LineTable
end StackScript
