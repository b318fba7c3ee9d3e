import StackScript.Proofs.Recognition.Parts
import StackScript.Proofs.Shape.Occurrences
import StackScript.Proofs.Syntax.Named

/-!
# What identifiers are compiled to

An identifier is compiled to an access to the slot of the innermost variable of its name,
or to an access to the global variable of this name if the function has no such variable
in scope (`Part.Resolves`).  In the latter case no function around may have one either:
what it has in scope where the inner function is declared is out of reach, and a source that
refers to it is refused (`Compiler.refused_of_captured`).
-/

namespace StackScript

/-- No routine around has a variable of this name. -/
def Free (outer : List (List LocalVariable)) (name : String) : Prop :=
  ∀ locals ∈ outer, ∀ var ∈ locals, var.name ≠ name

/-- The instruction at an offset of a routine is right for an identifier. -/
structure Part.Resolves (layout : Layout) (p : Part) (pc : Nat) (o : Occurrence) : Prop where
  /-- The slot is never that of the function itself. -/
  «local» : ∀ k, o.slot? = some k →
    0 < k ∧ (p.routine layout).chunk.decode pc = .ok ⟨o.localOp, k, pc + 2⟩
  global : o.slot? = none → Free p.outer o.name ∧
    ∃ op index behind text, (op = o.globalOp ∨ op = o.globalOp.longForm) ∧
      (p.routine layout).chunk.decode pc = .ok ⟨op, index, behind⟩ ∧
        (p.routine layout).chunk.constants[index]?.bind Value.asText? = some text ∧
          text.chars = o.name

/-! ## Slots -/

section

variable {name : String}

theorem slotIn_eq_innermost (name : String) (scope : List Binding) :
    slotIn name (scope.map Binding.name) = (innermost name scope).map Prod.fst := by
  induction scope with
  | nil => rfl
  | cons newest older ih =>
      rw [List.map_cons, slotIn, innermost]
      split
      · rw [List.length_map]
        rfl
      · exact ih

theorem slotIn_eq_findLocal (name : String) (locals : List LocalVariable) :
    slotIn name (locals.map LocalVariable.name) = (Body.findLocal name locals).map Prod.fst := by
  induction locals with
  | nil => rfl
  | cons newest older ih =>
      rw [List.map_cons, slotIn, Body.findLocal]
      split
      · rw [List.length_map]
        rfl
      · exact ih

/-- The variable found has the name. -/
theorem name_of_innermost {scope : List Binding} {k : Nat} {b : Binding}
    (found : innermost name scope = some (k, b)) : b.name = name := by
  induction scope with
  | nil => cases found
  | cons newest older ih =>
      rw [innermost] at found
      split at found
      · cases found
        assumption
      · exact ih found

/-- The lowest slot is that of the function itself. -/
theorem slotIn_pos (proper : name ≠ "") {scope : List String} {k : Nat}
    (last : scope.getLast? = some "") (found : slotIn name scope = some k) : 0 < k := by
  induction scope with
  | nil => cases found
  | cons newest older ih =>
      rw [slotIn] at found
      split at found
      · rename_i same
        cases found
        cases older with
        | nil =>
            obtain rfl := Option.some.inj last
            exact absurd same.symm proper
        | cons => exact Nat.succ_pos _
      · cases older with
        | nil => cases found
        | cons next others => exact ih (by simpa using last) found

end

/-! ## What occurs is named and bound -/

section

variable {outer : List (List LocalVariable)} {locals : List LocalVariable}

mutual

theorem Expression.mem_names {scope : List String} : (e : Expression) → ∀ o ∈ e.occurrences scope,
    o.name ∈ e.names ∧ o.scope = scope
  | .null | .boolean _ | .number _ | .string _ => by simp [Expression.occurrences]
  | .variable name => by simp [Expression.occurrences, Expression.names]
  | .grouping e | .unary _ e => e.mem_names
  | .binary _ a b | .and a b | .or a b =>
      List.forall_mem_append.mpr
        ⟨fun o mem => ⟨List.mem_append_left _ (a.mem_names o mem).1, (a.mem_names o mem).2⟩,
          fun o mem => ⟨List.mem_append_right _ (b.mem_names o mem).1, (b.mem_names o mem).2⟩⟩
  | .assign name e =>
      List.forall_mem_append.mpr
        ⟨fun o mem => ⟨List.mem_cons_of_mem _ (e.mem_names o mem).1, (e.mem_names o mem).2⟩,
          List.forall_mem_singleton.mpr ⟨List.mem_cons_self .., rfl⟩⟩
  | .call f es =>
      List.forall_mem_append.mpr
        ⟨fun o mem => ⟨List.mem_append_left _ (f.mem_names o mem).1, (f.mem_names o mem).2⟩,
          fun o mem => ⟨List.mem_append_right _ (Expression.mem_listNames es o mem).1,
            (Expression.mem_listNames es o mem).2⟩⟩

theorem Expression.mem_listNames {scope : List String} : (es : List Expression) →
    ∀ o ∈ Expression.listOccurrences scope es, o.name ∈ Expression.listNames es ∧ o.scope = scope
  | [] => by simp [Expression.listOccurrences]
  | e :: es =>
      List.forall_mem_append.mpr
        ⟨fun o mem => ⟨List.mem_append_left _ (e.mem_names o mem).1, (e.mem_names o mem).2⟩,
          fun o mem => ⟨List.mem_append_right _ (Expression.mem_listNames es o mem).1,
            (Expression.mem_listNames es o mem).2⟩⟩

end

/-- The name of an identifier is that of a variable in scope, or it is free. -/
def Occurrence.Bound (outer : List (List LocalVariable)) (o : Occurrence) : Prop :=
  o.slot? = none → Free outer o.name

theorem Compiler.Known.bound {e : Expression} (h : Known outer locals e.names) :
    ∀ o ∈ e.occurrences (locals.map LocalVariable.name), o.Bound outer := by
  intro o mem missing
  obtain ⟨occurs, scope⟩ := e.mem_names o mem
  rw [Occurrence.slot?, scope, slotIn_eq_findLocal, Option.map_eq_none_iff] at missing
  exact (h o.name occurs).free missing

theorem bound_clause {clause : Option Expression}
    (h : ∀ e ∈ clause, Compiler.Known outer locals e.names) :
    ∀ o ∈ clauseOccurrences (locals.map LocalVariable.name) clause, o.Bound outer := by
  cases clause with
  | none => simp [clauseOccurrences]
  | some e => exact (h e rfl).bound

/-- In a statement that is allowed identifiers are bound. -/
theorem Statement.Allowed.bound {s : Statement} {depth : Nat} (h : s.Allowed outer locals depth) :
    ∀ o ∈ s.occurrences (locals.map LocalVariable.name) depth, o.Bound outer := by
  induction s generalizing locals depth with
  | done | leave | again | define => simp [Statement.occurrences]
  | next a b first rest =>
      have behind := rest h.2
      rw [List.map_append] at behind
      exact List.forall_mem_append.mpr ⟨first h.1, behind⟩
  | print e | expression e => exact Compiler.Known.bound h
  | declare _ _ init => exact bound_clause fun e mem => (h e mem).1
  | block s ih => exact ih h
  | choose c s t yes no =>
      exact List.forall_mem_append.mpr
        ⟨List.forall_mem_append.mpr ⟨h.1.bound, yes h.2.1⟩, no h.2.2⟩
  | loop test step s ih =>
      exact List.forall_mem_append.mpr
        ⟨List.forall_mem_append.mpr ⟨bound_clause h.1, bound_clause h.2.1⟩, ih h.2.2⟩
  | giveBack value => exact bound_clause h

theorem named_clause {scope : List String} {clause : Option Expression}
    (h : ∀ e ∈ clause, e.Named) : ∀ o ∈ clauseOccurrences scope clause, o.name ≠ "" := by
  cases clause with
  | none => simp [clauseOccurrences]
  | some e => exact fun o mem => h e rfl _ (e.mem_names o mem).1

theorem Statement.Named.occurrences {s : Statement} (h : s.Named) {scope : List String} {depth : Nat} :
    ∀ o ∈ s.occurrences scope depth, o.name ≠ "" := by
  have named {e : Expression} (h : e.Named) {scope : List String} :
      ∀ o ∈ e.occurrences scope, o.name ≠ "" := fun o mem => h _ (e.mem_names o mem).1
  induction s generalizing scope depth with
  | done | leave | again | define => simp [Statement.occurrences]
  | next a b first rest => exact List.forall_mem_append.mpr ⟨first h.1, rest h.2⟩
  | print e | expression e => exact named h
  | declare _ _ init => exact named_clause h
  | block s ih => exact ih h
  | choose c s t yes no =>
      exact List.forall_mem_append.mpr
        ⟨List.forall_mem_append.mpr ⟨named h.1, yes h.2.1⟩, no h.2.2⟩
  | loop test step s ih =>
      exact List.forall_mem_append.mpr
        ⟨List.forall_mem_append.mpr ⟨named_clause h.1, named_clause h.2.1⟩, ih h.2.2⟩
  | giveBack value => exact named_clause h

/-- What is in scope where a statement begins is in scope inside it. -/
theorem Statement.suffix_occurrences {s : Statement} {scope : List String} {depth : Nat} :
    ∀ o ∈ s.occurrences scope depth, scope <:+ o.scope := by
  have same {e : Expression} {scope : List String} : ∀ o ∈ e.occurrences scope, scope <:+ o.scope :=
    fun o mem => (e.mem_names o mem).2 ▸ List.suffix_refl _
  have clause {clause : Option Expression} {scope : List String} :
      ∀ o ∈ clauseOccurrences scope clause, scope <:+ o.scope := by
    cases clause with
    | none => simp [clauseOccurrences]
    | some e => exact same
  induction s generalizing scope depth with
  | done | leave | again | define => simp [Statement.occurrences]
  | next a b first rest =>
      exact List.forall_mem_append.mpr ⟨first, fun o mem => (List.suffix_append ..).trans (rest o mem)⟩
  | print e | expression e => exact same
  | declare | giveBack => exact clause
  | block s ih => exact ih
  | choose c s t yes no =>
      exact List.forall_mem_append.mpr ⟨List.forall_mem_append.mpr ⟨same, yes⟩, no⟩
  | loop test step s ih =>
      exact List.forall_mem_append.mpr ⟨List.forall_mem_append.mpr ⟨clause, clause⟩, ih⟩

end

/-! ## Functions inside -/

/-- What every function of a program has in common with the script: its identifiers are named and
bound, and its lowest slot is its own. -/
structure Part.Settled (p : Part) : Prop where
  proper : p.body.Proper
  placed : p.place.Scoped
  named : p.body.Named
  allowed : p.body.Allowed p.outer p.place.locals p.place.depth
  own : p.names.getLast? = some ""

theorem Statement.settled_of_mem_parts {layout : Layout} {outer : List (List LocalVariable)}
    {s : Statement} (proper : s.Proper) (named : s.Named) {place : Place} {pool : Pool}
    (placed : place.Scoped) (allowed : s.Allowed outer place.locals place.depth)
    {p : Part} (mem : p ∈ s.parts layout outer place pool) : p.Settled := by
  induction s generalizing place pool with
  | next a b first rest =>
      have locals := a.locals_code layout proper.1 pool placed
      have after := placed.knowing a.depth_declared
      rw [← locals] at after
      rcases List.mem_append.mp mem with mem | mem
      · exact first proper.1 named.1 placed allowed.1 mem
      · refine rest proper.2 named.2 after ?_ mem
        rw [Place.knowing_locals, locals]
        exact allowed.2
  | block s ih => exact ih proper named placed.inner allowed mem
  | choose c s t yes no =>
      obtain ⟨-, left, right, flat, -⟩ := proper
      have locals := s.locals_code layout left (c.code place.locals pool).2 placed
      rw [flat.declared, List.nil_append] at locals
      rcases List.mem_append.mp mem with mem | mem
      · exact yes left named.2.1 placed allowed.2.1 mem
      · simp only [locals, Place.knowing_self] at mem
        exact no right named.2.2 placed allowed.2.2 mem
  | loop test step s ih => exact ih proper.2.2.1 named.2.2 placed.looped allowed.2.2 mem
  | define name parameters s =>
      obtain rfl := List.mem_singleton.mp mem
      exact ⟨proper, Place.scoped_function _, named, allowed.2, by simp [Part.names, Place.function]⟩
  | _ => cases mem

theorem Part.Settled.within {layout : Layout} {whole p : Part} (h : whole.Settled)
    (within : whole.Within layout p) : p.Settled := by
  induction within with
  | self => exact h
  | inner _ mem ih =>
      exact Statement.settled_of_mem_parts ih.proper ih.named ih.placed ih.allowed mem

theorem Part.Settled.bound {p : Part} (h : p.Settled) : ∀ o ∈ p.occurrences, o.Bound p.outer :=
  h.allowed.bound

/-- The identifiers in what is written are named. -/
theorem Statement.Writes.named {s : Statement} {source : String} (h : s.Writes source) : s.Named := by
  obtain ⟨ts, e, ends, same, -, written⟩ := h
  refine written.named fun t mem name => ?_
  have scanned : t ∈ Token.scan source := by
    rw [same]
    exact List.mem_append_left _ mem
  exact Token.lexeme_ne_of_mem_scan scanned name

/-- A source that is written from a tree is accepted only if the tree can be compiled. -/
theorem Statement.Writes.fine {s : Statement} {source : String} (h : s.Writes source) {heap : Heap}
    {script : Routine} (ok : (compile source heap).result = .ok script) :
    ∃ layout, (Part.script s heap).Fine layout ∧ script = (Part.script s heap).routine layout := by
  obtain ⟨ts, e, ends, same, last, written⟩ := h
  exact Compiler.script_of_written ok same last written

theorem Part.Fine.settled {layout : Layout} {s : Statement} {heap : Heap}
    (h : (Part.script s heap).Fine layout) (named : s.Named) : (Part.script s heap).Settled :=
  ⟨h.proper, h.placed, named, h.allowed, rfl⟩

theorem Part.Written.settled {layout : Layout} {p : Part} (h : p.Written layout) : p.Settled := by
  obtain ⟨source, heap, s, -, writes, fine, -, within⟩ := h
  exact (fine.settled writes.named).within within

/-! ## Instructions -/

/-- The instruction for an identifier that has been resolved. -/
def Occurrence.instruction (o : Occurrence) : Compiler.Target → Asm
  | .slot k => ⟨o.localOp, k⟩
  | .global index => .indexed o.globalOp index

/-- The note on an access to a variable tells which instruction it is. -/
theorem Note.Tells.access {pool : Pool} {note : Note} {a : Asm} {o : Occurrence}
    (tells : note.Tells pool a) (about : note.occurrence? = some o) :
    ∃ target, Means pool note.scope o.name target ∧ a = o.instruction target := by
  unfold Note.Tells at tells
  unfold Note.occurrence? at about
  split at about
  · rename_i name mention
    cases about
    rw [mention] at tells
    obtain ⟨target, means, rfl⟩ := tells
    exact ⟨target, means, by cases target <;> rfl⟩
  · rename_i name mention
    cases about
    rw [mention] at tells
    obtain ⟨target, means, rfl⟩ := tells
    exact ⟨target, means, by cases target <;> rfl⟩
  · cases about

/-- An instruction on a variable defines a global one, or it is that of an identifier. -/
theorem Note.Tells.occurrence {pool : Pool} {note : Note} {a : Asm} (tells : note.Tells pool a)
    (access : a.opcode.isAccess = true) :
    (∃ o, note.occurrence? = some o) ∨ a.opcode = .defineGlobal ∨ a.opcode = .defineGlobalLong := by
  unfold Note.Tells at tells
  unfold Note.occurrence?
  split at tells
  · rw [access] at tells
    cases tells
  · rename_i mention
    rw [mention]
    exact .inl ⟨_, rfl⟩
  · rename_i mention
    rw [mention]
    exact .inl ⟨_, rfl⟩
  · obtain ⟨⟨index, -, rfl⟩, -⟩ := tells
    refine .inr ?_
    rcases Asm.indexed_eq .defineGlobal index with same | same
    · exact .inl (congrArg Asm.opcode same)
    · exact .inr (congrArg Asm.opcode same)

/-- The slot of an identifier is that of the variable in scope. -/
theorem Note.slot_of_occurrence {note : Note} {o : Occurrence} (about : note.occurrence? = some o) :
    o.slot? = (innermost o.name note.scope).map Prod.fst := by
  have scope : o.scope = note.scope.map Binding.name := by
    unfold Note.occurrence? at about
    split at about
    · cases about
      rfl
    · cases about
      rfl
    · cases about
  rw [Occurrence.slot?, scope, slotIn_eq_innermost]

theorem Occurrence.size_local (o : Occurrence) (k : Nat) : (o.instruction (.slot k)).size = 2 := by
  rcases o with ⟨_, written, _⟩
  cases written <;> rfl

/-- The instruction on an identifier is the right one. -/
theorem Part.resolves {layout : Layout} {p : Part} (fine : p.Fine layout) (settled : p.Settled)
    (sound : (p.coded layout).pool.Sound) {pc : Nat} {o : Occurrence}
    (mem : (pc, o) ∈ p.accesses layout) : p.Resolves layout pc o := by
  have occurs : o ∈ p.occurrences := by
    rw [← p.occurrences_accesses fine]
    exact List.mem_map_of_mem mem
  obtain ⟨note, there, about⟩ := Part.noteAt_of_access mem
  obtain ⟨a, code, obeys⟩ := fine.follows pc note there
  obtain ⟨target, means, rfl⟩ := obeys.tells.access about
  have slot := Note.slot_of_occurrence about
  cases means with
  | @slot k b found =>
      rw [found] at slot
      rw [o.size_local] at code
      refine ⟨fun k' same => ?_, fun missing => ?_⟩
      · obtain rfl := Option.some.inj (slot.symm.trans same)
        -- the outermost variable in scope is the routine's own slot, which has no name
        have last : o.scope.getLast? = some "" := by
          obtain ⟨new, whole⟩ := Statement.suffix_occurrences o occurs
          rw [← whole, List.getLast?_append, settled.own]
          rfl
        exact ⟨slotIn_pos (settled.named.occurrences o occurs) last same, code⟩
      · rw [slot] at missing
        cases missing
  | @global index missing names =>
      rw [missing] at slot
      obtain ⟨text, constant, same⟩ := names
      refine ⟨fun k there => ?_, fun none => ⟨settled.bound o occurs none, ?_⟩⟩
      · rw [slot] at there
        cases there
      -- the constant's index decides between the short and the long form
      · rcases Asm.indexed_eq o.globalOp index with short | long
        · rw [Occurrence.instruction, short] at code
          exact ⟨_, _, _, text, .inl rfl, code, constant, same sound.heap⟩
        · rw [Occurrence.instruction, long] at code
          exact ⟨_, _, _, text, .inr rfl, code, constant, same sound.heap⟩

/-- No identifier leads to the slot of the function itself. -/
theorem Part.Settled.slot_pos {layout : Layout} {p : Part} (h : p.Settled) {pc k : Nat} {note : Note}
    {name : String} {b : Binding} (there : p.noteAt layout pc = some note)
    (mention : note.mention = some (.read name) ∨ note.mention = some (.write name))
    (found : innermost name note.scope = some (k, b)) : 0 < k := by
  obtain ⟨written, about⟩ : ∃ written,
      note.occurrence? = some ⟨name, written, note.scope.map Binding.name⟩ := by
    rcases mention with mention | mention
    · exact ⟨false, by simp only [Note.occurrence?, mention]⟩
    · exact ⟨true, by simp only [Note.occurrence?, mention]⟩
  have occurs : ⟨name, written, note.scope.map Binding.name⟩ ∈ p.occurrences := by
    rw [← p.occurrencesOf_notes]
    exact List.mem_filterMap.mpr ⟨note, mem_of_noteAt there, about⟩
  have slot := slotIn_eq_innermost name note.scope
  rw [found] at slot
  obtain ⟨new, whole⟩ := Statement.suffix_occurrences _ occurs
  replace whole : new ++ p.names = note.scope.map Binding.name := whole
  refine slotIn_pos (h.named.occurrences _ occurs) ?_ slot
  rw [← whole, List.getLast?_append, h.own]
  rfl

end StackScript
