import StackScript.Machine.Step
import StackScript.Proofs.Code.Parts
import StackScript.Proofs.Value.Outline

/-!
# Values that correspond

Two machines that do the same with different objects hold values that correspond: equal
numbers, strings of the same characters, and routines that are paired with one another.
Scripts cannot tell such values apart, as long as the pairing respects what they can see of
a routine (`Respectful`).  Routines that differ in identities only, down to their innermost
constants, are twins (`Routine.Twin`).
-/

namespace StackScript

section

variable (pairs : Routine → Routine → Prop)

/-- Data that correspond, given pairs of routines. -/
inductive Datum.Like : Datum → Datum → Prop where
  | null : Like .null .null
  | bool (b : Bool) : Like (.bool b) (.bool b)
  | number (x : Float) : Like (.number x) (.number x)
  | string {t t' : Text} (chars : t.chars = t'.chars) : Like (.string t) (.string t')
  | routine {r r' : Routine} (paired : pairs r r') : Like (.routine r) (.routine r')
  | native {n n' : Native} (id : n.id = n'.id) (name : n.name.chars = n'.name.chars) :
      Like (.native n) (.native n')

/-- Values that correspond are marked alike. -/
structure Value.Like (v v' : Value) : Prop where
  datum : v.datum.Like pairs v'.datum
  assignable : v.assignable = v'.assignable

/-- The pairs have in common what can be seen of a routine, and each routine belongs to one
pair. -/
structure Respectful : Prop where
  name : ∀ {r r'}, pairs r r' → r.name.map Text.chars = r'.name.map Text.chars
  arity : ∀ {r r'}, pairs r r' → r.arity = r'.arity
  id : ∀ {r r' q q'}, pairs r r' → pairs q q' → (r.id = q.id ↔ r'.id = q'.id)

end

variable {pairs : Routine → Routine → Prop}

namespace Datum.Like

variable {d d' e e' : Datum}

theorem imp {more : Routine → Routine → Prop} (h : d.Like pairs d')
    (le : ∀ r r', d = .routine r → pairs r r' → more r r') : d.Like more d' := by
  cases h with
  | null => exact .null
  | bool b => exact .bool b
  | number x => exact .number x
  | string chars => exact .string chars
  | routine paired => exact .routine (le _ _ rfl paired)
  | native id name => exact .native id name

theorem isFalsey (h : d.Like pairs d') : d.isFalsey = d'.isFalsey := by
  cases h <;> rfl

theorem same (respectful : Respectful pairs) (h : d.Like pairs d') (h' : e.Like pairs e') :
    d.same e = d'.same e' := by
  cases h with
  | null | bool | number => cases h' <;> rfl
  | string chars =>
      cases h' with
      | string chars' => simp only [Datum.same, chars, chars']
      | _ => rfl
  | routine paired =>
      cases h' with
      | routine paired' =>
          simp only [Datum.same, beq_eq_decide, respectful.id paired paired']
      | _ => rfl
  | native id =>
      cases h' with
      | native id' => simp only [Datum.same, id, id']
      | _ => rfl

theorem sum (h : d.Like pairs d') (h' : e.Like pairs e') :
    Machine.sum d e = Machine.sum d' e' := by
  cases h with
  | null | bool | routine | native => cases h' <;> rfl
  | number =>
      cases h' with
      | string chars => simp only [Machine.sum, chars]
      | _ => rfl
  | string chars =>
      cases h' with
      | string chars' => simp only [Machine.sum, chars, chars']
      | number => simp only [Machine.sum, chars]
      | _ => rfl

/-- Data with the same outline correspond, if the routines do. -/
theorem of_outline (same : d.outline = d'.outline)
    (routines : ∀ r r', d = .routine r → d' = .routine r' → pairs r r') : d.Like pairs d' := by
  -- only a routine has the outline of a routine
  have apart {r : Routine} {other : Datum} (h : (Datum.routine r).outline = other.outline) :
      ∃ r', other = .routine r' := by
    rw [show (Datum.routine r).outline = r.outline from rfl, Routine.outline_eq] at h
    cases other with
    | routine r' => exact ⟨r', rfl⟩
    | _ => cases h
  cases d with
  | routine r =>
      obtain ⟨r', rfl⟩ := apart same
      exact .routine (routines r r' rfl rfl)
  | null =>
      cases d' with
      | null => exact .null
      | routine r' => cases (apart same.symm).choose_spec
      | _ => cases same
  | bool b =>
      cases d' with
      | bool b' => exact Outline.bool.inj same ▸ .bool b
      | routine r' => cases (apart same.symm).choose_spec
      | _ => cases same
  | number x =>
      cases d' with
      | number x' => exact Outline.number.inj same ▸ .number x
      | routine r' => cases (apart same.symm).choose_spec
      | _ => cases same
  | string t =>
      cases d' with
      | string t' => exact .string (Outline.string.inj same)
      | routine r' => cases (apart same.symm).choose_spec
      | _ => cases same
  | native n =>
      cases d' with
      | native n' => exact .native (Outline.native.inj same).1 (Outline.native.inj same).2
      | routine r' => cases (apart same.symm).choose_spec
      | _ => cases same

theorem outline (h : d.Like pairs d') (routines : ∀ r r', pairs r r' → r.outline = r'.outline) :
    d.outline = d'.outline := by
  cases h with
  | null | bool | number => rfl
  | string chars => exact congrArg Outline.string chars
  | routine paired => exact routines _ _ paired
  | native id name => simp only [Datum.outline, id, name]

end Datum.Like

namespace Value.Like

variable {v v' w w' : Value}

theorem imp {more : Routine → Routine → Prop} (h : v.Like pairs v')
    (le : ∀ r r', v.datum = .routine r → pairs r r' → more r r') : v.Like more v' :=
  ⟨h.datum.imp le, h.assignable⟩

theorem of {d d' : Datum} (h : d.Like pairs d') : (Value.of d).Like pairs (.of d') := ⟨h, rfl⟩

theorem bool (b : Bool) : (Value.bool b).Like pairs (.bool b) := of (.bool b)

theorem number (x : Float) : (Value.number x).Like pairs (.number x) := of (.number x)

theorem copy (h : v.Like pairs v') : v.copy.Like pairs v'.copy := ⟨h.datum, rfl⟩

theorem constant (h : v.Like pairs v') : v.constant.Like pairs v'.constant := ⟨h.datum, rfl⟩

theorem isFalsey (h : v.Like pairs v') : v.isFalsey = v'.isFalsey := h.datum.isFalsey

theorem asNumber? (h : v.Like pairs v') : v.asNumber? = v'.asNumber? := by
  obtain ⟨d, a⟩ := v
  obtain ⟨d', a'⟩ := v'
  cases (show d.Like pairs d' from h.datum) <;> rfl

theorem asText? (h : v.Like pairs v') :
    v.asText?.map Text.chars = v'.asText?.map Text.chars := by
  obtain ⟨d, a⟩ := v
  obtain ⟨d', a'⟩ := v'
  cases (show d.Like pairs d' from h.datum) with
  | string chars => exact congrArg some chars
  | _ => rfl

theorem beq (respectful : Respectful pairs) (h : v.Like pairs v') (h' : w.Like pairs w') :
    (v == w) = (v' == w') := h.datum.same respectful h'.datum

/-- Values that correspond are written alike, if routines that do have the same name. -/
theorem display (names : ∀ {r r'}, pairs r r' → r.name.map Text.chars = r'.name.map Text.chars)
    (h : v.Like pairs v') : v.display = v'.display := by
  obtain ⟨d, a⟩ := v
  obtain ⟨d', a'⟩ := v'
  cases (show d.Like pairs d' from h.datum) with
  | @routine r r' paired =>
      have name := names paired
      simp only [Value.display]
      cases own : r.name <;> cases other : r'.name <;> simp_all
  | string chars => exact chars
  | null | bool | number | native => rfl

theorem outline (h : v.Like pairs v') (routines : ∀ r r', pairs r r' → r.outline = r'.outline) :
    v.outline = v'.outline := by
  rw [Value.outline_eq, Value.outline_eq, h.datum.outline routines, h.assignable]

end Value.Like

/-- Elements at the same place of lists that correspond. -/
theorem rel_getElem? {α β : Type} {like : α → β → Prop} {l : List α} {l' : List β}
    (h : List.Forall₂ like l l') (i : Nat) : Option.Rel like l[i]? l'[i]? := by
  induction h generalizing i with
  | nil => exact .none
  | cons first _ ih =>
      cases i with
      | zero => exact .some first
      | succ i => simpa using ih i

/-! ## Twins -/

namespace Routine

/-- The routine that is reached along constants. -/
def inner? : (path : List Nat) → Routine → Option Routine
  | [], r => some r
  | i :: path, r => (r.chunk.constants[i]?.bind Value.asRoutine?).bind (inner? path)

theorem within_of_inner? {whole r q : Routine} {path : List Nat} (within : whole.Within r)
    (found : r.inner? path = some q) : whole.Within q := by
  induction path generalizing r with
  | nil =>
      cases found
      exact within
  | cons i path ih =>
      obtain ⟨next, there, found⟩ := Option.bind_eq_some_iff.mp found
      obtain ⟨v, constant, routine⟩ := Option.bind_eq_some_iff.mp there
      refine ih (.constant within (Array.mem_of_getElem? constant) ?_) found
      obtain ⟨datum, assignable⟩ := v
      cases datum <;> cases routine
      rfl

/-- Routines that differ in identities only, and in lines; the identities of both, and of
routines at the same place inside them, belong together. -/
structure Twin (ids : Nat → Nat → Prop) (r r' : Routine) : Prop where
  outline : r.outline = r'.outline
  ids : ∀ path q q', r.inner? path = some q → r'.inner? path = some q' → ids q.id q'.id

end Routine

/-- Each identity on one side belongs to one on the other. -/
def OneToOne (ids : Nat → Nat → Prop) : Prop :=
  ∀ {i i' j j'}, ids i i' → ids j j' → (i = j ↔ i' = j')

namespace Routine.Twin

variable {ids : Nat → Nat → Prop} {r r' : Routine}

theorem imp {more : Nat → Nat → Prop} (h : r.Twin ids r') (le : ∀ i i', ids i i' → more i i') :
    r.Twin more r' := ⟨h.outline, fun path q q' found found' => le _ _ (h.ids path q q' found found')⟩

theorem refl (same : ∀ q, r.Within q → ids q.id q.id) : r.Twin ids r := by
  refine ⟨rfl, fun path q q' found found' => ?_⟩
  obtain rfl : q = q' := Option.some.inj (found.symm.trans found')
  exact same q (within_of_inner? .self found)

theorem id (h : r.Twin ids r') : ids r.id r'.id := h.ids [] r r' rfl rfl

theorem parts (h : r.Twin ids r') : r.name.map Text.chars = r'.name.map Text.chars ∧
    r.arity = r'.arity ∧ r.chunk.code = r'.chunk.code ∧
      r.chunk.constants.toList.map Value.outline = r'.chunk.constants.toList.map Value.outline := by
  have outline := h.outline
  rw [Routine.outline_eq, Routine.outline_eq] at outline
  simpa using outline

/-- Twins have twins among their constants. -/
theorem constants (h : r.Twin ids r') :
    List.Forall₂ (Value.Like (Twin ids)) r.chunk.constants.toList r'.chunk.constants.toList := by
  have outlines := h.parts.2.2.2
  have length : r.chunk.constants.toList.length = r'.chunk.constants.toList.length := by
    simpa using congrArg List.length outlines
  refine List.forall₂_iff_get.mpr ⟨length, fun i inside inside' => ?_⟩
  have there : r.chunk.constants[i]? = some (r.chunk.constants.toList.get ⟨i, inside⟩) := by
    simp
  have there' : r'.chunk.constants[i]? = some (r'.chunk.constants.toList.get ⟨i, inside'⟩) := by
    simp
  generalize r.chunk.constants.toList.get ⟨i, inside⟩ = v at there
  generalize r'.chunk.constants.toList.get ⟨i, inside'⟩ = v' at there'
  have same : v.outline = v'.outline := by
    have entry := congrArg (·[i]?) outlines
    simpa [there, there'] using entry
  rw [Value.outline_eq, Value.outline_eq, Prod.mk.injEq] at same
  refine ⟨.of_outline same.1 fun q q' isRoutine isRoutine' => ⟨?_, fun path p p' found found' => ?_⟩,
    same.2⟩
  · rw [isRoutine, isRoutine'] at same
    exact same.1
  · refine h.ids (i :: path) p p' ?_ ?_
    · simp [inner?, there, Value.asRoutine?, isRoutine, found]
    · simp [inner?, there', Value.asRoutine?, isRoutine', found']

/-- Routines with twins among their constants are twins. -/
theorem of_constants (id : ids r.id r'.id) (name : r.name.map Text.chars = r'.name.map Text.chars)
    (arity : r.arity = r'.arity) (code : r.chunk.code = r'.chunk.code)
    (constants : List.Forall₂ (Value.Like (Twin ids)) r.chunk.constants.toList
      r'.chunk.constants.toList) : r.Twin ids r' := by
  constructor
  · have outlines : r.chunk.constants.toList.map Value.outline =
        r'.chunk.constants.toList.map Value.outline := by
      rw [← List.forall₂_eq_eq_eq, List.forall₂_map_left_iff, List.forall₂_map_right_iff]
      exact constants.imp fun v v' like => like.outline fun q q' twin => twin.outline
    rw [Routine.outline_eq, Routine.outline_eq, name, arity, code, outlines]
  · intro path q q' found found'
    cases path with
    | nil =>
        cases found
        cases found'
        exact id
    | cons i path =>
        simp only [inner?, Option.bind_eq_some_iff] at found found'
        obtain ⟨p, ⟨v, there, routine⟩, found⟩ := found
        obtain ⟨p', ⟨v', there', routine'⟩, found'⟩ := found'
        have like := rel_getElem? constants i
        rw [Array.getElem?_toList, Array.getElem?_toList, there, there', Option.rel_some_some] at like
        obtain ⟨datum, assignable⟩ := v
        obtain ⟨datum', assignable'⟩ := v'
        cases (show datum.Like _ datum' from like.datum) with
        | routine twin =>
            cases routine
            cases routine'
            exact twin.ids path q q' found found'
        | _ => cases routine

/-- Twins respect what can be seen of a routine. -/
theorem respectful (one : OneToOne ids) : Respectful (Twin ids) where
  name h := h.parts.1
  arity h := h.parts.2.1
  id h h' := one h.id h'.id

end Routine.Twin

end StackScript
