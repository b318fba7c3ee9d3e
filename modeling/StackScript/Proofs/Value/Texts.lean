import StackScript.Proofs.Code.Constants

/-!
# String objects and their table

The strings that can be reached from a value, and the strings that a table holds.  A table
numbers its objects, so that among them the number tells the characters; looking a string up
adds its characters to the table and changes nothing else.
-/

namespace StackScript

/-! ## Strings of a value -/

mutual

/-- The string objects that can be reached from a datum. -/
def Datum.texts : Datum → List Text
  | .string text => [text]
  | .routine r => r.texts
  | .native n => [n.name]
  | _ => []

/-- The string objects that can be reached from a routine: its name, and those of its
constants. -/
def Routine.texts : Routine → List Text
  | ⟨_, name, _, ⟨_, ⟨constants⟩, _⟩⟩ => name.toList ++ Value.allTexts constants

/-- The string objects that can be reached from some of the values. -/
def Value.allTexts : List Value → List Text
  | [] => []
  | ⟨datum, _⟩ :: vs => datum.texts ++ Value.allTexts vs

end

/-- The string objects that can be reached from a value. -/
def Value.texts (v : Value) : List Text := v.datum.texts

@[simp] theorem Value.texts_copy (v : Value) : v.copy.texts = v.texts := rfl

@[simp] theorem Value.texts_constant (v : Value) : v.constant.texts = v.texts := rfl

@[simp] theorem Value.texts_string (t : Text) : (Value.string t).texts = [t] := rfl

@[simp] theorem Value.texts_routine (r : Routine) : (Value.routine r).texts = r.texts := rfl

theorem Value.mem_allTexts {t : Text} {vs : List Value} :
    t ∈ Value.allTexts vs ↔ ∃ v ∈ vs, t ∈ v.texts := by
  induction vs with
  | nil => simp [Value.allTexts]
  | cons v vs ih =>
      obtain ⟨datum, assignable⟩ := v
      rw [Value.allTexts, List.mem_append, ih, List.exists_mem_cons_iff]
      rfl

theorem Routine.mem_texts {t : Text} {r : Routine} :
    t ∈ r.texts ↔ r.name = some t ∨ ∃ v ∈ r.chunk.constants, t ∈ v.texts := by
  obtain ⟨id, name, arity, ⟨code, ⟨constants⟩, lines⟩⟩ := r
  simp only [Routine.texts, List.mem_append, Value.mem_allTexts, Option.mem_toList,
    List.mem_toArray]

/-! ## Strings of a table -/

namespace TextTable

/-- The characters of the strings in the table. -/
def keys (table : TextTable) : Finset String := table.entries.keys.toFinset

/-- The objects are filed under their characters, and numbered. -/
structure Numbered (table : TextTable) : Prop where
  chars : ∀ (chars : String) (t : Text), table.entries[chars]? = some t → t.chars = chars
  below : ∀ (chars : String) (t : Text), table.entries[chars]? = some t → t.id < table.size
  distinct : ∀ (chars chars' : String) (t t' : Text), table.entries[chars]? = some t →
    table.entries[chars']? = some t' → t.id = t'.id → chars = chars'

theorem numbered_empty : empty.Numbered := by
  constructor <;> simp [empty]

theorem mem_keys {table : TextTable} {chars : String} :
    chars ∈ table.keys ↔ chars ∈ table.entries := by
  rw [keys, List.mem_toFinset, Std.TreeMap.mem_keys]

@[simp] theorem keys_empty : empty.keys = ∅ := by
  ext chars
  simp [mem_keys, empty]

/-- The size of a table is the number of its strings. -/
theorem card_keys (table : TextTable) : table.keys.card = table.size := by
  have distinct : table.entries.keys.Nodup := by
    refine List.Pairwise.imp (fun different same => ?_) (Std.TreeMap.distinct_keys (t := table.entries))
    exact different (by simp [same])
  rw [keys, List.toFinset_card_of_nodup distinct, Std.TreeMap.length_keys, size]

section

variable (table : TextTable) (chars : String)

/-- Looking a string up adds it, if it is not there. -/
theorem keys_intern : (table.intern chars).2.keys = insert chars table.keys := by
  ext other
  unfold intern
  cases found : table.entries[chars]? with
  | some t =>
      have there : chars ∈ table.entries := by
        rw [← Std.TreeMap.isSome_getElem?_iff_mem, found]
        rfl
      simp only [Finset.mem_insert, mem_keys]
      constructor
      · exact .inr
      · rintro (rfl | mem)
        · exact there
        · exact mem
  | none =>
      rw [Finset.mem_insert, mem_keys, mem_keys, Std.TreeMap.mem_insert, compare_eq_iff_eq,
        eq_comm]

variable {table}

theorem Numbered.intern (h : table.Numbered) : (table.intern chars).2.Numbered := by
  unfold TextTable.intern
  cases found : table.entries[chars]? with
  | some t => exact h
  | none =>
      have absent : chars ∉ table.entries := by
        rw [← Std.TreeMap.isSome_getElem?_iff_mem, found]
        exact Bool.false_ne_true
      have size : (table.entries.insert chars ⟨table.size, chars⟩).size = table.size + 1 := by
        rw [Std.TreeMap.size_insert, if_neg (by simpa using absent), TextTable.size]
      constructor
      · intro other t there
        rcases entry_of_insert there with ⟨same, rfl⟩ | old
        · exact same
        · exact h.chars other t old
      · intro other t there
        show t.id < (table.entries.insert chars ⟨table.size, chars⟩).size
        rw [size]
        rcases entry_of_insert there with ⟨-, rfl⟩ | old
        · exact Nat.lt_succ_self _
        · exact Nat.lt_succ_of_lt (h.below other t old)
      · intro other other' t t' there there' same
        rcases entry_of_insert there with ⟨rfl, rfl⟩ | old <;>
          rcases entry_of_insert there' with ⟨rfl, rfl⟩ | old'
        · rfl
        · exact absurd same (Nat.ne_of_gt (h.below other' t' old'))
        · exact absurd same (Nat.ne_of_lt (h.below other t old))
        · exact h.distinct other other' t t' old old' same

end

/-- The table after the given strings have been looked up in it, one after the other. -/
def internAll (table : TextTable) (texts : List String) : TextTable :=
  texts.foldl (fun table chars => (table.intern chars).2) table

theorem internAll_append (table : TextTable) (texts more : List String) :
    table.internAll (texts ++ more) = (table.internAll texts).internAll more :=
  List.foldl_append

theorem keys_internAll (table : TextTable) (texts : List String) :
    (table.internAll texts).keys = table.keys ∪ texts.toFinset := by
  induction texts generalizing table with
  | nil => simp [internAll]
  | cons chars texts ih =>
      have step : table.internAll (chars :: texts) = (table.intern chars).2.internAll texts := rfl
      rw [step, ih, keys_intern, List.toFinset_cons, Finset.insert_union, Finset.union_insert]

theorem Numbered.internAll {table : TextTable} (h : table.Numbered) (texts : List String) :
    (table.internAll texts).Numbered := by
  induction texts generalizing table with
  | nil => exact h
  | cons chars texts ih => exact ih (h.intern chars)

end TextTable

/-! ## Strings of a heap -/

namespace Heap

/-- The object is the one that the table holds for its characters. -/
def Has (heap : Heap) (t : Text) : Prop := heap.texts.entries[t.chars]? = some t

theorem Has.mono {heap heap' : Heap} {t : Text} (h : heap.Has t) (le : heap.Le heap') :
    heap'.Has t := le t.chars t h

/-- Looking the string up gives the object back and changes nothing. -/
theorem Has.intern {heap : Heap} {t : Text} (h : heap.Has t) : heap.intern t.chars = (t, heap) := by
  simp only [Heap.intern, TextTable.intern]
  rw [show heap.texts.entries[t.chars]? = some t from h]

theorem Valid.has_intern {heap : Heap} (valid : heap.Valid) (chars : String) :
    (heap.intern chars).2.Has (heap.intern chars).1 := by
  have same : (heap.intern chars).1.chars = chars := valid.chars_text chars
  rw [Has, same]
  exact entry_intern heap chars

/-- In a numbered table, objects are the same if and only if their characters are. -/
theorem Has.id_eq {heap : Heap} (numbered : heap.texts.Numbered) {t t' : Text} (h : heap.Has t)
    (h' : heap.Has t') : t.id = t'.id ↔ t.chars = t'.chars := by
  refine ⟨numbered.distinct _ _ _ _ h h', fun same => ?_⟩
  rw [Has, same, h'] at h
  rw [Option.some.inj h]

end Heap
end StackScript
