import StackScript.Proofs.Shape.Flow

/-!
# Expressions keep to their notes

The code of an expression leaves everything that stood on the stack where it was, puts
one value on top, and never goes anywhere but to its own instructions or to its end.
-/

namespace StackScript

/-! ## The pool -/

namespace Pool

theorem served_add {p q : Pool} {v : Value} (le : (p.add v).2.Le q) :
    (p.add v).1 < q.constants.size := by
  have inside : ∃ w, (p.add v).2.constants[(p.add v).1]? = some w := by
    unfold Pool.add
    split
    · rename_i index found
      obtain ⟨inside, -⟩ := Array.findIdx?_eq_some_iff_getElem.mp found
      exact ⟨_, Array.getElem?_eq_getElem inside⟩
    · exact ⟨v, by simp⟩
  obtain ⟨w, there⟩ := inside
  obtain ⟨inside, -⟩ := Array.getElem?_eq_some_iff.mp (le.constants _ _ there)
  exact inside

theorem Names.mono {p q : Pool} (le : p.Le q) {index : Nat} {name : String}
    (h : p.Names index name) : q.Names index name := by
  obtain ⟨text, there, same⟩ := h
  cases found : p.constants[index]? with
  | none => simp [found] at there
  | some v =>
      refine ⟨text, ?_, fun valid => same fun chars text' entry => valid _ _ (le.heap _ _ entry)⟩
      rw [le.constants _ _ found]
      rwa [found] at there

/-- The index given out for a name leads to it. -/
theorem names_addString (p : Pool) (name : String) :
    (p.addString name).2.Names (p.addString name).1 name := by
  have entry := p.heap.entry_intern name
  unfold addString add
  split
  · rename_i index found
    obtain ⟨inside, equal, -⟩ := Array.findIdx?_eq_some_iff_getElem.mp found
    -- An older constant is given out again if its characters are the same.
    have equal : (p.constants[index]).datum.same (.string (p.heap.intern name).1) = true := equal
    cases known : (p.constants[index]).datum with
    | string text =>
        rw [known] at equal
        have chars : text.chars = (p.heap.intern name).1.chars := by
          simpa [Datum.same] using equal
        refine ⟨text, ?_, fun valid => chars.trans (valid _ _ entry)⟩
        simp [Array.getElem?_eq_getElem inside, Value.asText?, known]
    | null | bool | number | routine | native =>
        rw [known] at equal
        cases equal
  · refine ⟨(p.heap.intern name).1, ?_, fun valid => valid _ _ entry⟩
    simp [Value.asText?, Value.string, Value.of]

end Pool

section

variable {view : Nat → Option Note} {pool : Pool} {leave again pc : Nat} {above : List Slot}
  {scope : List Binding} {rest : List Slot}

/-! ## Single instructions -/

/-- An instruction that goes on behind itself and is about no variable. -/
theorem Asm.obeys_work {a : Asm} {note : Note} (onward : a.targets pc = [pc + a.size])
    (silent : note.mention = none) (other : a.opcode.isAccess = false)
    (needs : note.shape = List.replicate a.takes .temporary ++ rest)
    (served : a.opcode = .constant ∨ a.opcode = .constantLong → a.operand < pool.constants.size)
    (exit : Leads view (pc + a.size) (a.gives ++ rest)) : a.Obeys view pool pc note where
  turns := by
    refine ⟨a.gives ++ rest, ?_, ?_⟩
    · rw [needs]
      exact .work a rest
    · rw [onward, List.forall_mem_singleton]
      exact exit
  back loop := by
    simp [targets, loop, size, Opcode.operandWidth] at onward
    omega
  served := served
  tells := by
    rw [Note.Tells, silent]
    exact other

/-- An instruction on a variable. -/
theorem Asm.obeys_access {a : Asm} {note : Note} (access : a.opcode.isAccess = true)
    (needs : note.shape = List.replicate a.takes .temporary ++ rest)
    (tells : note.Tells pool a) (exit : Leads view (pc + a.size) (a.gives ++ rest)) :
    a.Obeys view pool pc note where
  turns := by
    have onward : a.targets pc = [pc + a.size] := by
      unfold targets
      split <;> simp_all [Opcode.isAccess]
    refine ⟨a.gives ++ rest, ?_, ?_⟩
    · rw [needs]
      exact .work a rest
    · rw [onward, List.forall_mem_singleton]
      exact exit
  back loop := by rw [loop] at access; cases access
  served := by
    rintro (load | load) <;> (rw [load] at access; cases access)
  tells := tells

/-- A constant is loaded. -/
theorem Asm.obeys_constant {index : Nat} (inside : index < pool.constants.size)
    (exit : Leads view (pc + (Asm.indexed .constant index).size)
      (.temporary :: (above ++ scope.map .bound))) :
    (Asm.indexed .constant index).Obeys view pool pc (.plain above scope) := by
  rcases Asm.indexed_eq .constant index with same | same
  · rw [same] at exit ⊢
    exact obeys_work rfl rfl rfl rfl (fun _ => inside) exit
  · rw [same] at exit ⊢
    exact obeys_work rfl rfl rfl rfl (fun _ => inside) exit

theorem means_resolve {locals : List LocalVariable} {p : Pool} {name : String}
    (names : locals.map LocalVariable.name = scope.map Binding.name)
    (le : (p.resolve locals name).2.Le pool) :
    Means pool scope name (p.resolve locals name).1 := by
  have same : (Body.findLocal name locals).map Prod.fst = (innermost name scope).map Prod.fst :=
    findLocal_eq_innermost names
  unfold Pool.resolve at le ⊢
  cases known : Body.findLocal name locals with
  | none =>
      rw [known] at same le
      refine .global ?_ ((p.names_addString name).mono le)
      simpa using same.symm
  | some found =>
      obtain ⟨k, var⟩ := found
      rw [known] at same
      cases there : innermost name scope with
      | none => simp [there] at same
      | some found =>
          obtain ⟨k', b⟩ := found
          obtain rfl : k = k' := by simpa [there] using same
          exact .slot there

/-- A variable is read. -/
theorem Compiler.Target.obeys_read {target : Compiler.Target} {name : String}
    (means : Means pool scope name target)
    (exit : Leads view (pc + target.read.size) (.temporary :: (above ++ scope.map .bound))) :
    target.read.Obeys view pool pc ⟨above, scope, some (.read name)⟩ := by
  have tells : Note.Tells pool ⟨above, scope, some (.read name)⟩ target.read :=
    ⟨target, means, rfl⟩
  cases target with
  | slot k => exact Asm.obeys_access rfl rfl tells exit
  | global index =>
      change (Asm.indexed .getGlobal index).Obeys view pool pc _
      change Leads view (pc + (Asm.indexed .getGlobal index).size) _ at exit
      change Note.Tells pool _ (Asm.indexed .getGlobal index) at tells
      rcases Asm.indexed_eq .getGlobal index with same | same
      · rw [same] at tells exit ⊢
        exact Asm.obeys_access rfl rfl tells exit
      · rw [same] at tells exit ⊢
        exact Asm.obeys_access rfl rfl tells exit

/-- A variable is assigned to; the value stays. -/
theorem Compiler.Target.obeys_write {target : Compiler.Target} {name : String}
    (means : Means pool scope name target)
    (exit : Leads view (pc + target.write.size) (.temporary :: (above ++ scope.map .bound))) :
    target.write.Obeys view pool pc ⟨.temporary :: above, scope, some (.write name)⟩ := by
  have tells : Note.Tells pool ⟨.temporary :: above, scope, some (.write name)⟩ target.write :=
    ⟨target, means, rfl⟩
  cases target with
  | slot k => exact Asm.obeys_access rfl rfl tells exit
  | global index =>
      change (Asm.indexed .setGlobal index).Obeys view pool pc _
      change Leads view (pc + (Asm.indexed .setGlobal index).size) _ at exit
      change Note.Tells pool _ (Asm.indexed .setGlobal index) at tells
      rcases Asm.indexed_eq .setGlobal index with same | same
      · rw [same] at tells exit ⊢
        exact Asm.obeys_access rfl rfl tells exit
      · rw [same] at tells exit ⊢
        exact Asm.obeys_access rfl rfl tells exit

/-- A condition is looked at. -/
theorem Asm.obeys_jumpIfFalse {distance : Nat}
    (onward : Leads view (pc + 3) (.temporary :: (above ++ scope.map .bound)))
    (away : Leads view (pc + 3 + distance) (.temporary :: (above ++ scope.map .bound))) :
    Asm.Obeys view pool pc (.plain (.temporary :: above) scope) ⟨.jumpIfFalse, distance⟩ where
  turns := by
    refine ⟨_, .work ⟨.jumpIfFalse, distance⟩ (above ++ scope.map .bound), ?_⟩
    intro target mem
    simp only [targets, List.mem_cons, List.not_mem_nil, or_false] at mem
    rcases mem with rfl | rfl
    · exact onward
    · exact away
  back loop := by cases loop
  served := by rintro (load | load) <;> cases load
  tells := rfl

/-- Execution goes on elsewhere. -/
theorem Asm.obeys_jump {distance : Nat}
    (away : Leads view (pc + 3 + distance) (above ++ scope.map .bound)) :
    Asm.Obeys view pool pc (.plain above scope) ⟨.jump, distance⟩ where
  turns := by
    refine ⟨_, .work ⟨.jump, distance⟩ (above ++ scope.map .bound), ?_⟩
    intro target mem
    obtain rfl := List.mem_singleton.mp mem
    exact away
  back loop := by cases loop
  served := by rintro (load | load) <;> cases load
  tells := rfl

/-- A value is dropped. -/
theorem Asm.obeys_pop (exit : Leads view (pc + 1) (above ++ scope.map .bound)) :
    Asm.Obeys view pool pc (.plain (.temporary :: above) scope) (.plain .pop) :=
  obeys_work rfl rfl rfl rfl (by rintro (load | load) <;> cases load) exit

/-- The routine gives back a value. -/
theorem Asm.obeys_return :
    Asm.Obeys view pool pc (.plain (.temporary :: above) scope) (.plain .return) where
  turns := ⟨above ++ scope.map .bound, .work (.plain .return) _, by simp [Asm.targets, Asm.plain]⟩
  back loop := by cases loop
  served load := by rcases load with load | load <;> cases load
  tells := rfl

theorem BinaryOperator.obeys_notes (op : BinaryOperator)
    (covers : Covers view pc (ops op.code) (op.notes above scope))
    (exit : Leads view (pc + codeSize op.code) (.temporary :: (above ++ scope.map Slot.bound))) :
    Obeys view pool leave again pc (ops op.code) (op.notes above scope) := by
  -- The second instruction, if there is one, negates what the first has found out.
  have negated {pc : Nat} (exit : Leads view (pc + 1) (.temporary :: (above ++ scope.map Slot.bound))) :
      Asm.Obeys view pool pc (.plain (.temporary :: above) scope) (.plain .not) :=
    Asm.obeys_work (show (Asm.plain .not).targets pc = [pc + 1] from rfl) rfl rfl
      (show _ = List.replicate 1 Slot.temporary ++ (above ++ scope.map .bound) from rfl)
      (by rintro (load | load) <;> cases load) exit
  have once {o : Opcode} {pc : Nat} (takes : (Asm.plain o).takes = 2)
      (gives : (Asm.plain o).gives = [.temporary]) (onward : (Asm.plain o).targets pc = [pc + 1])
      (size : (Asm.plain o).size = 1) (other : o.isAccess = false)
      (load : ¬ (o = .constant ∨ o = .constantLong))
      (exit : Leads view (pc + 1) (.temporary :: (above ++ scope.map Slot.bound))) :
      Asm.Obeys view pool pc (.plain (.temporary :: .temporary :: above) scope) (.plain o) := by
    have needs : (Note.plain (.temporary :: .temporary :: above) scope).shape =
        List.replicate (Asm.plain o).takes .temporary ++ (above ++ scope.map Slot.bound) := by
      rw [takes]
      rfl
    refine Asm.obeys_work (by rw [size, onward]) rfl other needs (fun h => absurd h load) ?_
    rw [size, gives]
    exact exit
  cases op with
  | equal | greater | less | add | subtract | multiply | divide =>
      exact ⟨once rfl rfl rfl rfl rfl (by decide) exit, trivial⟩
  | notEqual | greaterEqual | lessEqual =>
      refine ⟨once rfl rfl rfl rfl rfl (by decide) covers.2.leads, negated exit, trivial⟩

/-! ## Trees -/

/-- An expression begins with what is on the stack already. -/
theorem Expression.notes_eq (above : List Slot) (scope : List Binding) : (e : Expression) →
    ∃ mention notes, e.notes above scope = ⟨above, scope, mention⟩ :: notes
  | .null | .boolean _ | .number _ | .string _ | .variable _ => ⟨_, _, rfl⟩
  | .grouping e => e.notes_eq above scope
  | .unary _ e | .assign _ e => by
      obtain ⟨mention, notes, same⟩ := e.notes_eq above scope
      exact ⟨mention, _, by rw [Expression.notes, same]; rfl⟩
  | .binary _ a _ | .and a _ | .or a _ | .call a _ => by
      obtain ⟨mention, notes, same⟩ := a.notes_eq above scope
      exact ⟨mention, _, by rw [Expression.notes, same]; rfl⟩

theorem Covers.leads_notes {cells : List Cell} {e : Expression} {others : List Note}
    (h : Covers view pc cells (e.notes above scope ++ others)) :
    Leads view pc (above ++ scope.map .bound) := by
  obtain ⟨mention, notes, same⟩ := e.notes_eq above scope
  rw [same] at h
  exact h.leads

theorem Covers.leads_first {cells : List Cell} {e : Expression}
    (h : Covers view pc cells (e.notes above scope)) :
    Leads view pc (above ++ scope.map .bound) := by
  rw [← List.append_nil (e.notes above scope)] at h
  exact h.leads_notes

/-- Arguments begin with what is on the stack before them. -/
theorem Covers.leads_listNotes {cells : List Cell} {e : Expression} {es : List Expression}
    (h : Covers view pc cells (Expression.listNotes above scope (e :: es))) :
    Leads view pc (above ++ scope.map .bound) := by
  rw [Expression.listNotes] at h
  exact h.leads_notes

theorem length_ops (code : List Asm) : (ops code).length = code.length := List.length_map ..

/-- The last instruction of a piece of code. -/
theorem obeys_singleton {a : Asm} {note : Note} (h : a.Obeys view pool pc note) :
    Obeys view pool leave again pc (ops [a]) [note] := ⟨h, trivial⟩

/-- Cells and what follows them: the notes on what follows say where the cells lead. -/
theorem Obeys.seq {cells more : List Cell} {notes others : List Note} {shape : List Slot}
    (length : notes.length = cells.length)
    (covers : Covers view pc (cells ++ more) (notes ++ others))
    (next : Covers view (pc + cellsSize cells) more others →
      Leads view (pc + cellsSize cells) shape)
    (first : Covers view pc cells notes → Leads view (pc + cellsSize cells) shape →
      Obeys view pool leave again pc cells notes)
    (rest : Covers view (pc + cellsSize cells) more others →
      Obeys view pool leave again (pc + cellsSize cells) more others) :
    Obeys view pool leave again pc (cells ++ more) (notes ++ others) := by
  obtain ⟨covers, covers'⟩ := (covers_append length).mp covers
  rw [obeys_append length]
  exact ⟨first covers (next covers'), rest covers'⟩

/-- The same for cells that are all instructions. -/
theorem Obeys.before {code more : List Asm} {notes others : List Note} {shape : List Slot}
    (length : notes.length = code.length)
    (covers : Covers view pc (ops (code ++ more)) (notes ++ others))
    (next : Covers view (pc + codeSize code) (ops more) others →
      Leads view (pc + codeSize code) shape)
    (first : Covers view pc (ops code) notes → Leads view (pc + codeSize code) shape →
      Obeys view pool leave again pc (ops code) notes)
    (rest : Covers view (pc + codeSize code) (ops more) others →
      Obeys view pool leave again (pc + codeSize code) (ops more) others) :
    Obeys view pool leave again pc (ops (code ++ more)) (notes ++ others) := by
  rw [← cellsSize_ops] at next first rest
  rw [ops_append] at covers ⊢
  exact .seq (by rw [length_ops, length]) covers next first rest

/-! ## Operands that may be skipped -/

section

variable {right : List Asm} {notes : List Note}

/-- The right operand of a conjunction, where the left one has been evaluated. -/
theorem obeys_skip
    (begins : Covers view (pc + 3 + 1) (ops right) notes →
      Leads view (pc + 3 + 1) (above ++ scope.map .bound))
    (operand : Covers view (pc + 3 + 1) (ops right) notes →
      Leads view (pc + 3 + 1 + codeSize right) (.temporary :: (above ++ scope.map .bound)) →
      Obeys view pool leave again (pc + 3 + 1) (ops right) notes)
    (covers : Covers view pc
      (ops (⟨.jumpIfFalse, codeSize (.plain .pop :: right)⟩ :: .plain .pop :: right))
      (.plain (.temporary :: above) scope :: .plain (.temporary :: above) scope :: notes))
    (exit : Leads view
      (pc + codeSize (⟨.jumpIfFalse, codeSize (.plain .pop :: right)⟩ :: .plain .pop :: right))
      (.temporary :: (above ++ scope.map .bound))) :
    Obeys view pool leave again pc
      (ops (⟨.jumpIfFalse, codeSize (.plain .pop :: right)⟩ :: .plain .pop :: right))
      (.plain (.temporary :: above) scope :: .plain (.temporary :: above) scope :: notes) := by
  obtain ⟨-, dropped, covers⟩ := covers
  -- the jump lands behind the operand, with the left value still on the stack
  have away : Leads view (pc + 3 + codeSize (.plain .pop :: right))
      (.temporary :: (above ++ scope.map .bound)) := by
    rw [codeSize_cons] at exit
    rwa [Nat.add_assoc]
  refine ⟨Asm.obeys_jumpIfFalse (.same dropped) away, Asm.obeys_pop (begins covers), operand covers ?_⟩
  rw [codeSize_cons, ← Nat.add_assoc] at away
  exact away

/-- The right operand of a disjunction, where the left one has been evaluated. -/
theorem obeys_skipUnless
    (begins : Covers view (pc + 3 + 3 + 1) (ops right) notes →
      Leads view (pc + 3 + 3 + 1) (above ++ scope.map .bound))
    (operand : Covers view (pc + 3 + 3 + 1) (ops right) notes →
      Leads view (pc + 3 + 3 + 1 + codeSize right) (.temporary :: (above ++ scope.map .bound)) →
      Obeys view pool leave again (pc + 3 + 3 + 1) (ops right) notes)
    (covers : Covers view pc
      (ops (⟨.jumpIfFalse, 3⟩ :: ([⟨.jump, codeSize (.plain .pop :: right)⟩] ++ .plain .pop :: right)))
      (.plain (.temporary :: above) scope :: .plain (.temporary :: above) scope ::
        .plain (.temporary :: above) scope :: notes))
    (exit : Leads view (pc + codeSize
      (⟨.jumpIfFalse, 3⟩ :: ([⟨.jump, codeSize (.plain .pop :: right)⟩] ++ .plain .pop :: right)))
      (.temporary :: (above ++ scope.map .bound))) :
    Obeys view pool leave again pc
      (ops (⟨.jumpIfFalse, 3⟩ :: ([⟨.jump, codeSize (.plain .pop :: right)⟩] ++ .plain .pop :: right)))
      (.plain (.temporary :: above) scope :: .plain (.temporary :: above) scope ::
        .plain (.temporary :: above) scope :: notes) := by
  obtain ⟨-, skipped, dropped, covers⟩ := covers
  have away : Leads view (pc + 3 + 3 + codeSize (.plain .pop :: right))
      (.temporary :: (above ++ scope.map .bound)) := by
    have skip (right : List Asm) : codeSize (⟨.jumpIfFalse, 3⟩ ::
        ([⟨.jump, codeSize right⟩] ++ right)) = 3 + (3 + codeSize right) := by
      rw [List.singleton_append, codeSize_cons, codeSize_cons]
      rfl
    rw [Nat.add_assoc, Nat.add_assoc, ← skip]
    exact exit
  refine ⟨Asm.obeys_jumpIfFalse (.same skipped) (.same dropped), Asm.obeys_jump away,
    Asm.obeys_pop (begins covers), operand covers ?_⟩
  rw [codeSize_cons, ← Nat.add_assoc] at away
  exact away

end

section

variable {locals : List LocalVariable}

mutual

/-- The code of an expression puts its value on top of what was there. -/
theorem Expression.obeys_notes
    (names : locals.map LocalVariable.name = scope.map Binding.name) (above : List Slot)
    (pc : Nat) : (e : Expression) → (p : Pool) → (e.code locals p).2.Le pool →
      Covers view pc (ops (e.code locals p).1) (e.notes above scope) →
      Leads view (pc + codeSize (e.code locals p).1) (.temporary :: (above ++ scope.map .bound)) →
      Obeys view pool leave again pc (ops (e.code locals p).1) (e.notes above scope)
  | .null, _, _, _, exit =>
      obeys_singleton (Asm.obeys_work rfl rfl rfl rfl (by rintro (load | load) <;> cases load) exit)
  | .boolean b, _, _, _, exit => by
      cases b <;>
        exact obeys_singleton
          (Asm.obeys_work rfl rfl rfl rfl (by rintro (load | load) <;> cases load) exit)
  | .number x, p, le, _, exit => by
      rw [Expression.code, codeSize_singleton] at exit
      exact obeys_singleton (Asm.obeys_constant (Pool.served_add le) exit)
  | .string chars, p, le, _, exit => by
      rw [Expression.code, codeSize_singleton] at exit
      exact obeys_singleton (Asm.obeys_constant (Pool.served_add le) exit)
  | .variable name, p, le, _, exit => by
      rw [Expression.code, codeSize_singleton] at exit
      exact obeys_singleton (Compiler.Target.obeys_read (means_resolve names le) exit)
  | .grouping e, p, le, covers, exit => e.obeys_notes names above pc p le covers exit
  | .unary op e, p, le, covers, exit => by
      simp only [Expression.code, Expression.notes, codeSize_append, codeSize_singleton,
        ← Nat.add_assoc] at le covers exit ⊢
      refine .before (e.length_notes locals scope above p) covers Covers.leads
        (e.obeys_notes names above pc p le) fun _ => obeys_singleton ?_
      cases op <;>
        exact Asm.obeys_work rfl rfl rfl rfl (by rintro (load | load) <;> cases load) exit
  | .binary op a b, p, le, covers, exit => by
      simp only [Expression.code, Expression.notes, List.append_assoc] at le covers exit ⊢
      simp only [codeSize_append, ← Nat.add_assoc] at exit
      refine .before (a.length_notes locals scope above p) covers Covers.leads_notes
        (a.obeys_notes names above pc p ((b.le_code locals _).trans le)) fun covers => ?_
      refine .before (b.length_notes locals scope _ _) covers Covers.leads
        (b.obeys_notes names (.temporary :: above) _ _ le) fun covers => ?_
      exact op.obeys_notes covers exit
  | .and a b, p, le, covers, exit => by
      simp only [Expression.code, Expression.notes] at le covers exit ⊢
      simp only [codeSize_append, ← Nat.add_assoc] at exit
      refine .before (a.length_notes locals scope above p) covers Covers.leads
        (a.obeys_notes names above pc p ((b.le_code locals _).trans le)) fun covers => ?_
      exact obeys_skip Covers.leads_first (b.obeys_notes names above _ _ le) covers exit
  | .or a b, p, le, covers, exit => by
      simp only [Expression.code, Expression.notes] at le covers exit ⊢
      simp only [codeSize_append, ← Nat.add_assoc] at exit
      refine .before (a.length_notes locals scope above p) covers Covers.leads
        (a.obeys_notes names above pc p ((b.le_code locals _).trans le)) fun covers => ?_
      exact obeys_skipUnless Covers.leads_first (b.obeys_notes names above _ _ le) covers exit
  | .assign name e, p, le, covers, exit => by
      simp only [Expression.code, Expression.notes, codeSize_append, codeSize_singleton,
        ← Nat.add_assoc] at le covers exit ⊢
      refine .before (e.length_notes locals scope above _) covers Covers.leads
        (e.obeys_notes names above pc _ le) fun _ => obeys_singleton ?_
      exact Compiler.Target.obeys_write (means_resolve names ((e.le_code locals _).trans le)) exit
  | .call f es, p, le, covers, exit => by
      simp only [Expression.code, Expression.notes, List.append_assoc] at le covers exit ⊢
      simp only [codeSize_append, codeSize_singleton, ← Nat.add_assoc] at exit
      have arguments := Expression.length_listNotes locals scope (.temporary :: above) es
        (f.code locals p).2
      refine .before (f.length_notes locals scope above p) covers (fun covers => ?_)
        (f.obeys_notes names above pc p ((Expression.le_listCode locals es _).trans le))
        fun covers => ?_
      · -- Without arguments the call itself comes next.
        cases es with
        | nil => exact covers.leads
        | cons e es =>
            rw [ops_append] at covers
            exact ((covers_append (by rw [length_ops, arguments])).mp covers).1.leads_listNotes
      · refine .before arguments covers Covers.leads
          (fun covers exit => Expression.obeys_listNotes names (.temporary :: above) _ es _ le covers
            ?_) fun _ => obeys_singleton (Asm.obeys_work rfl rfl rfl ?_ ?_ exit)
        · rw [Note.shape_plain, List.append_assoc] at exit
          exact exit
        · show (List.replicate es.length Slot.temporary ++ .temporary :: above) ++ _ =
            List.replicate (es.length + 1) Slot.temporary ++ (above ++ scope.map .bound)
          rw [List.replicate_succ', List.append_assoc, List.append_assoc]
          rfl
        · rintro (load | load) <;> cases load

/-- The code of arguments puts their values one above the other. -/
theorem Expression.obeys_listNotes
    (names : locals.map LocalVariable.name = scope.map Binding.name) (above : List Slot)
    (pc : Nat) : (es : List Expression) → (p : Pool) →
      (Expression.listCode locals es p).2.Le pool →
      Covers view pc (ops (Expression.listCode locals es p).1)
        (Expression.listNotes above scope es) →
      Leads view (pc + codeSize (Expression.listCode locals es p).1)
        (List.replicate es.length .temporary ++ (above ++ scope.map .bound)) →
      Obeys view pool leave again pc (ops (Expression.listCode locals es p).1)
        (Expression.listNotes above scope es)
  | [], _, _, _, _ => trivial
  | e :: es, p, le, covers, exit => by
      simp only [Expression.listCode, Expression.listNotes] at le covers exit ⊢
      simp only [codeSize_append, ← Nat.add_assoc] at exit
      refine .before (e.length_notes locals scope above p) covers (fun covers => ?_)
        (e.obeys_notes names above pc p ((Expression.le_listCode locals es _).trans le))
        fun covers => Expression.obeys_listNotes names (.temporary :: above) _ es _ le covers ?_
      · cases es with
        | nil => exact exit
        | cons e es => exact covers.leads_listNotes
      · rwa [List.length_cons, List.replicate_succ', List.append_assoc] at exit

end

end

end

end StackScript
