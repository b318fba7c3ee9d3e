import StackScript.Proofs.Token.Reading

/-!
# The bytes of a text

Line tables count bytes, and texts are made of characters.  The two agree on line feeds: the
byte of a line feed stands in the bytes of a text just where the character does, for all
other characters have bytes of their own.
-/

namespace StackScript

/-- The bytes of a text. -/
def utf8 (text : List Char) : List UInt8 := text.flatMap String.utf8EncodeChar

/-- The byte of a line feed. -/
def lineFeed : UInt8 := 10

@[simp] theorem utf8_nil : utf8 [] = [] := rfl

@[simp] theorem utf8_cons (c : Char) (text : List Char) :
    utf8 (c :: text) = String.utf8EncodeChar c ++ utf8 text := rfl

@[simp] theorem utf8_append (front back : List Char) :
    utf8 (front ++ back) = utf8 front ++ utf8 back := by
  simp [utf8]

/-- They are the bytes as which the text is stored. -/
theorem utf8_toList (text : String) : utf8 text.toList = text.toUTF8.data.toList := by
  rw [String.toUTF8, ← String.utf8Encode_toList, List.utf8Encode, List.toList_data_toByteArray, utf8]

@[simp] theorem length_utf8 (text : List Char) : (utf8 text).length = Token.byteLength text := by
  induction text with
  | nil => rfl
  | cons c text ih =>
      rw [utf8_cons, List.length_append, String.length_utf8EncodeChar, ih, Token.byteLength_cons]

/-- The bytes of a part are a part of the bytes. -/
theorem take_utf8 (front back : List Char) :
    (utf8 (front ++ back)).take (Token.byteLength front) = utf8 front := by
  rw [utf8_append, List.take_left' (length_utf8 front)]

@[simp] theorem encode_lineFeed : String.utf8EncodeChar '\n' = [lineFeed] := rfl

/-- A character that takes several bytes takes none of those that stand for themselves. -/
theorem eq_or_le_of_mem_encode {c : Char} {b : UInt8} (mem : b ∈ String.utf8EncodeChar c) :
    b.toNat = c.toNat ∨ 128 ≤ b.toNat := by
  have code : c.val.toNat = c.toNat := rfl
  simp only [String.utf8EncodeChar, code] at mem
  -- one case for each number of bytes
  split at mem
  · rw [List.mem_singleton.mp mem, UInt8.toNat_ofNat']
    omega
  split at mem
  · simp only [List.mem_cons, List.not_mem_nil, or_false] at mem
    rcases mem with rfl | rfl <;> rw [UInt8.toNat_ofNat'] <;> omega
  split at mem
  · simp only [List.mem_cons, List.not_mem_nil, or_false] at mem
    rcases mem with rfl | rfl | rfl <;> rw [UInt8.toNat_ofNat'] <;> omega
  · simp only [List.mem_cons, List.not_mem_nil, or_false] at mem
    rcases mem with rfl | rfl | rfl | rfl <;> rw [UInt8.toNat_ofNat'] <;> omega

theorem lineFeed_not_mem_encode {c : Char} (other : c ≠ '\n') :
    lineFeed ∉ String.utf8EncodeChar c := by
  intro mem
  apply other
  rcases eq_or_le_of_mem_encode mem with same | high
  · exact Char.toNat_inj.mp same.symm
  · exact absurd high (by decide)

/-- What is not in a list differs from all its items. -/
theorem forall_bne {α : Type} [BEq α] [LawfulBEq α] {a : α} {items : List α} (none : a ∉ items) :
    ∀ b ∈ items, (b != a) = true := by
  intro b mem
  rw [bne_iff_ne]
  rintro rfl
  exact none mem

theorem count_utf8 (text : List Char) : (utf8 text).count lineFeed = text.count '\n' := by
  induction text with
  | nil => rfl
  | cons c text ih =>
      rw [utf8_cons, List.count_append, ih]
      by_cases feed : c = '\n'
      · subst feed
        rw [encode_lineFeed, List.count_singleton_self, List.count_cons_self, Nat.add_comm]
      · rw [List.count_eq_zero_of_not_mem (lineFeed_not_mem_encode feed), Nat.zero_add,
          List.count_cons_of_ne feed]

/-- The rest of a text behind its last line feed is the rest of its bytes behind theirs. -/
theorem rtakeWhile_utf8 (text : List Char) :
    (utf8 text).rtakeWhile (· != lineFeed) = utf8 (text.rtakeWhile (· != '\n')) := by
  induction text using List.reverseRecOn with
  | nil => rfl
  | append_singleton text c ih =>
      rw [utf8_append, utf8_cons, utf8_nil, List.append_nil, List.rtakeWhile_concat]
      by_cases feed : c = '\n'
      · subst feed
        rw [encode_lineFeed, List.rtakeWhile_concat]
        simp
      · have inside : ∀ b ∈ (String.utf8EncodeChar c).reverse, (b != lineFeed) = true :=
          forall_bne (by simpa using lineFeed_not_mem_encode feed)
        have more : (c != '\n') = true := bne_iff_ne.mpr feed
        rw [if_pos more, utf8_append, utf8_cons, utf8_nil, List.append_nil, ← ih, List.rtakeWhile,
          List.reverse_append, List.takeWhile_append_of_pos inside, List.reverse_append,
          List.reverse_reverse, List.rtakeWhile]

end StackScript
