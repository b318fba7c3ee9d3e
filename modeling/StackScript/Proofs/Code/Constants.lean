import StackScript.Proofs.Code.Postfix
import StackScript.Proofs.Number.Literal
import StackScript.Proofs.Parsing.Steps

/-!
# Constants are what was asked for

A pool gives out an old constant for a new value that is equal to it.  Equality
forgets the sign of zero, the identity of a string object and the mark of a
binding, but among the constants that the compiler makes it forgets nothing:
`constant_add` says that the index given out leads to the very value.
-/

namespace StackScript

/-- What is found under a key was there before another entry was made, or is that entry. -/
theorem entry_of_insert {β : Type} {entries : Std.TreeMap String β} {key other : String} {x y : β}
    (there : (entries.insert key x)[other]? = some y) :
    key = other ∧ y = x ∨ entries[other]? = some y := by
  rw [Std.TreeMap.getElem?_insert] at there
  split at there
  · rename_i same
    exact .inl ⟨compare_eq_iff_eq.mp same, (Option.some.inj there).symm⟩
  · exact .inr there

namespace Heap

/-- The heap lists every string under its own characters. -/
def Valid (heap : Heap) : Prop :=
  ∀ (chars : String) (text : Text),
    heap.texts.entries[chars]? = some text → text.chars = chars

/-- The string object for the given characters. -/
def text (heap : Heap) (chars : String) : Text := (heap.intern chars).1

/-- Every string of the first heap is the same object in the second. -/
def Le (heap heap' : Heap) : Prop :=
  ∀ (chars : String) (text : Text),
    heap.texts.entries[chars]? = some text → heap'.texts.entries[chars]? = some text

theorem valid_empty : Heap.empty.Valid := by
  intro chars text found
  simp [Heap.empty, TextTable.empty] at found

theorem text_of_entry {heap : Heap} {chars : String} {text : Text}
    (found : heap.texts.entries[chars]? = some text) : heap.text chars = text := by
  simp [Heap.text, Heap.intern, TextTable.intern, found]

theorem entry_intern (heap : Heap) (chars : String) :
    (heap.intern chars).2.texts.entries[chars]? = some (heap.intern chars).1 :=
  TextTable.intern_entry heap.texts chars

theorem Le.refl (heap : Heap) : heap.Le heap := fun _ _ => id

theorem Le.trans {a b c : Heap} (hab : a.Le b) (hbc : b.Le c) : a.Le c :=
  fun chars text found => hbc chars text (hab chars text found)

theorem le_intern (heap : Heap) (chars : String) : heap.Le (heap.intern chars).2 := by
  intro other text found
  simp only [Heap.intern, TextTable.intern]
  cases missing : heap.texts.entries[chars]? with
  | some => exact found
  | none =>
      have distinct : chars ≠ other := by
        rintro rfl
        rw [missing] at found
        cases found
      simp [Std.TreeMap.getElem?_insert, distinct, found]

theorem Valid.intern {heap : Heap} (valid : heap.Valid) (chars : String) :
    (heap.intern chars).2.Valid := by
  intro other text found
  simp only [Heap.intern, TextTable.intern] at found
  cases missing : heap.texts.entries[chars]? with
  | some =>
      simp only [missing] at found
      exact valid other text found
  | none =>
      simp only [missing] at found
      rcases entry_of_insert found with ⟨rfl, rfl⟩ | old
      · rfl
      · exact valid other text old

theorem Valid.chars_text {heap : Heap} (valid : heap.Valid) (chars : String) :
    (heap.text chars).chars = chars :=
  valid.intern chars chars _ (entry_intern heap chars)

theorem Made.mono {heap heap' : Heap} (le : heap.Le heap') {v : Value} (h : heap.Made v) :
    heap'.Made v := by
  cases h with
  | number literal => exact .number literal
  | string entry => exact .string (le _ _ entry)
  | routine r => exact .routine r

/-- Equal constants are the same, unless they are routines. -/
theorem Made.eq_of_beq {heap : Heap} (valid : heap.Valid) {v w : Value} (hv : heap.Made v)
    (hw : heap.Made w) (datum : w.asRoutine? = none) (same : (v == w) = true) : v = w := by
  have same : v.datum.same w.datum = true := same
  cases hw with
  | number literal =>
      cases hv with
      | number literal' => rw [Number.literal_eq_of_beq literal' literal same]
      | string => cases same
      | routine => cases same
  | @string chars text entry =>
      cases hv with
      | number => cases same
      | @string chars' text' entry' =>
          have equal : text'.chars = text.chars := by
            simpa [Value.string, Value.of, Datum.same] using same
          rw [valid _ _ entry', valid _ _ entry] at equal
          subst equal
          rw [entry'] at entry
          rw [Option.some.inj entry]
      | routine => cases same
  | routine => cases datum

end Heap

namespace Pool

/-- Strings and constants of the first pool are where they were in the second. -/
structure Le (p q : Pool) : Prop where
  heap : p.heap.Le q.heap
  constants : ∀ (i : Nat) (v : Value), p.constants[i]? = some v → q.constants[i]? = some v

/-- The pool was filled by the compiler. -/
structure Sound (p : Pool) : Prop where
  heap : p.heap.Valid
  constants : ∀ v ∈ p.constants, p.heap.Made v

theorem Le.refl (p : Pool) : p.Le p := ⟨Heap.Le.refl _, fun _ _ => id⟩

theorem Le.trans {p q r : Pool} (hpq : p.Le q) (hqr : q.Le r) : p.Le r :=
  ⟨hpq.heap.trans hqr.heap, fun i v found => hqr.constants i v (hpq.constants i v found)⟩

theorem le_add (p : Pool) (v : Value) : p.Le (p.add v).2 := by
  unfold add
  split
  · exact Le.refl p
  · refine ⟨Heap.Le.refl _, fun i w found => ?_⟩
    obtain ⟨inside, -⟩ := Array.getElem?_eq_some_iff.mp found
    show (p.constants.push v)[i]? = some w
    rw [Array.getElem?_push, if_neg (by omega), found]

theorem heap_add (p : Pool) (v : Value) : (p.add v).2.heap = p.heap := by
  unfold add
  split <;> rfl

theorem Sound.add {p : Pool} (sound : p.Sound) {v : Value} (made : p.heap.Made v) :
    (p.add v).2.Sound := by
  unfold Pool.add
  split
  · exact sound
  · refine ⟨sound.heap, fun w mem => ?_⟩
    rcases Array.mem_push.mp mem with old | rfl
    · exact sound.constants w old
    · exact made

/-- The index given out for a number or a string leads to it. -/
theorem constant_add {p : Pool} (sound : p.Sound) {v : Value} (made : p.heap.Made v)
    (datum : v.asRoutine? = none) : (p.add v).2.constants[(p.add v).1]? = some v := by
  unfold Pool.add
  split
  · rename_i index found
    obtain ⟨inside, same, -⟩ := Array.findIdx?_eq_some_iff_getElem.mp found
    have old := sound.constants _ (Array.getElem_mem inside)
    show p.constants[index]? = some v
    rw [Array.getElem?_eq_getElem inside, old.eq_of_beq sound.heap made datum same]
  · show (p.constants.push v)[p.constants.size]? = some v
    simp

/-- The pool after a string has been looked up. -/
theorem le_intern (p : Pool) (chars : String) : p.Le ⟨(p.heap.intern chars).2, p.constants⟩ :=
  ⟨p.heap.le_intern chars, fun _ _ => id⟩

theorem Sound.intern {p : Pool} (sound : p.Sound) (chars : String) :
    Sound ⟨(p.heap.intern chars).2, p.constants⟩ :=
  ⟨sound.heap.intern chars, fun v mem => (sound.constants v mem).mono (p.heap.le_intern chars)⟩

theorem le_addString (p : Pool) (chars : String) : p.Le (p.addString chars).2 :=
  (p.le_intern chars).trans (le_add _ _)

theorem Sound.addString {p : Pool} (sound : p.Sound) (chars : String) :
    (p.addString chars).2.Sound :=
  (sound.intern chars).add (.string (p.heap.entry_intern chars))

/-- The index given out for a string leads to its object in any later pool. -/
theorem constant_addString {p q : Pool} (sound : p.Sound) (chars : String)
    (le : (p.addString chars).2.Le q) :
    q.constants[(p.addString chars).1]? = some (.string (q.heap.text chars)) := by
  have entry := p.heap.entry_intern chars
  have found := constant_add (sound.intern chars) (.string entry) rfl
  have kept : (p.addString chars).2.heap.texts.entries[chars]? = some (p.heap.intern chars).1 := by
    rw [show (p.addString chars).2.heap = (p.heap.intern chars).2 from heap_add _ _]
    exact entry
  rw [Heap.text_of_entry (le.heap _ _ kept)]
  exact le.constants _ _ found

theorem le_resolve (p : Pool) (locals : List LocalVariable) (name : String) :
    p.Le (p.resolve locals name).2 := by
  unfold resolve
  split
  · exact Le.refl p
  · exact p.le_addString name

theorem Sound.resolve {p : Pool} (sound : p.Sound) (locals : List LocalVariable) (name : String) :
    (p.resolve locals name).2.Sound := by
  unfold Pool.resolve
  split
  · exact sound
  · exact sound.addString name

end Pool

/-! ## The pool along an expression -/

mutual

/-- The code of an expression only adds to the pool. -/
theorem Expression.le_code (locals : List LocalVariable) :
    (e : Expression) → (pool : Pool) → pool.Le (e.code locals pool).2
  | .null, pool => .refl pool
  | .boolean _, pool => .refl pool
  | .number _, pool => pool.le_add _
  | .string _, pool => pool.le_addString _
  | .variable name, pool => pool.le_resolve locals name
  | .grouping e, pool => e.le_code locals pool
  | .unary _ e, pool => e.le_code locals pool
  | .binary _ a b, pool => (a.le_code locals pool).trans (b.le_code locals _)
  | .and a b, pool => (a.le_code locals pool).trans (b.le_code locals _)
  | .or a b, pool => (a.le_code locals pool).trans (b.le_code locals _)
  | .assign name e, pool => (pool.le_resolve locals name).trans (e.le_code locals _)
  | .call f es, pool => (f.le_code locals pool).trans (Expression.le_listCode locals es _)

theorem Expression.le_listCode (locals : List LocalVariable) :
    (es : List Expression) → (pool : Pool) → pool.Le (Expression.listCode locals es pool).2
  | [], pool => .refl pool
  | e :: es, pool => (e.le_code locals pool).trans (Expression.le_listCode locals es _)

end

mutual

/-- The code of an expression keeps the pool one that the compiler filled. -/
theorem Expression.sound_code (locals : List LocalVariable) :
    (e : Expression) → e.Genuine → (pool : Pool) → pool.Sound → (e.code locals pool).2.Sound
  | .null, _, _, sound => sound
  | .boolean _, _, _, sound => sound
  | .number _, ⟨_, literal⟩, _, sound => sound.add (.number literal)
  | .string _, _, _, sound => sound.addString _
  | .variable name, _, _, sound => sound.resolve locals name
  | .grouping e, genuine, _, sound => e.sound_code locals genuine _ sound
  | .unary _ e, genuine, _, sound => e.sound_code locals genuine _ sound
  | .binary _ a b, ⟨left, right⟩, _, sound =>
      b.sound_code locals right _ (a.sound_code locals left _ sound)
  | .and a b, ⟨left, right⟩, _, sound =>
      b.sound_code locals right _ (a.sound_code locals left _ sound)
  | .or a b, ⟨left, right⟩, _, sound =>
      b.sound_code locals right _ (a.sound_code locals left _ sound)
  | .assign name e, genuine, _, sound => e.sound_code locals genuine _ (sound.resolve locals name)
  | .call f es, ⟨callee, arguments⟩, _, sound =>
      Expression.sound_listCode locals es arguments _ (f.sound_code locals callee _ sound)

theorem Expression.sound_listCode (locals : List LocalVariable) :
    (es : List Expression) → Expression.GenuineList es → (pool : Pool) → pool.Sound →
      (Expression.listCode locals es pool).2.Sound
  | [], _, _, sound => sound
  | e :: es, ⟨first, others⟩, _, sound =>
      Expression.sound_listCode locals es others _ (e.sound_code locals first _ sound)

end

end StackScript
