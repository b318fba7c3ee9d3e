import StackScript.Proofs.Code.Parts
import StackScript.Proofs.Recognition.Program

/-!
# What an accepted program is compiled to

A source that is compiled without errors was written from a tree, and the script is the
routine of that tree.  So every routine that a script can get hold of is one of the parts
of the program.
-/

namespace StackScript
namespace Compiler

variable {source : String} {heap : Heap}

/-- Reading a token does not change what was compiled. -/
theorem Yields.advance {layout : Layout} {s : Statement} {c c' : Compiler}
    (h : Yields layout s c c') : Yields layout s c c'.advance :=
  ⟨(h.coding.seq (coding_none (emits_advance c'))).of_eq (by simp), h.closed, h.allowed,
    h.finishes.to_body (advance_body c'), h.narrow⟩

/-- An accepted source is compiled as any tree that its tokens write. -/
theorem made_of_written {script : Routine} (ok : (compile source heap).result = .ok script)
    {ts : List Token} {e : Token} {ends : Bool} {s : Statement}
    (same : Token.scan source = ts ++ [e]) (last : e.kind = .eof)
    (written : StatementWritten .sequence ends s ts) :
    ∃ layout, (Part.script s heap).Fine layout ∧
      (script, (compile source heap).heap) = ((Part.script s heap).coded layout).routine layout none 0
        (Part.script s heap).ending := by
  have body : Stage (opening source heap) (declarations (Token.scan source) heap) [e]
      (Codes s (opening source heap) (declarations (Token.scan source) heap)) :=
    stage_of_written (written_of_ok ok).1 same last written
  have begun := acts_advance (start (Token.scan source) heap)
  have ended : Acts true (declarations (Token.scan source) heap) (closing source heap) :=
    acts_advance _
  have completes : Acts true (closing source heap) (closing source heap).endRoutine.2 :=
    acts_endRoutine _
  have quiet := ((quiet_of_ok ok).split begun (body.acts.trans ended)).2.split body.acts ended
  have fresh : (opening source heap).body = { Body.start none with
      depth := 0, arity := 0, locals := Place.script.locals } := advance_body _
  have pooled : (opening source heap).pool = ⟨heap, #[]⟩ := by
    rw [pool, fresh, show (opening source heap).heap = heap from advance_heap _]
    rfl
  have place : (opening source heap).place = .script := by
    rw [Compiler.place, fresh]
    rfl
  have outer : (opening source heap).outer = [] := by
    rw [Compiler.outer, show (opening source heap).enclosing = [] from advance_enclosing _]
    rfl
  have steady : (opening source heap).Steady := by
    refine ⟨?_, begun.grounded ⟨Body.grounded_start none, by simp [start]⟩⟩
    rw [place]
    refine ⟨fun var mem => ?_, by simp [Place.script]⟩
    obtain rfl := List.mem_singleton.mp mem
    exact ⟨0, rfl, Nat.le_refl _⟩
  -- The line tables are those of the routines that have been completed in the end.
  let layout := (closing source heap).endRoutine.2.lineTables
  have whole : Acts true (start (Token.scan source) heap) (closing source heap) :=
    (begun.trans body.acts).trans ended
  have agrees : Agrees layout (closing source heap).endRoutine.2 :=
    (completes.numbered (whole.numbered (numbered_start _ heap))).agrees
  have before : Agrees layout (declarations (Token.scan source) heap) :=
    (agrees.before completes).before ended
  have yields : Yields layout s (opening source heap) (declarations (Token.scan source) heap) :=
    (body.holds quiet.1).2 steady before
  have routine := endRoutine_yields fresh pooled yields.advance agrees
  have small : (opening source heap).body.locals.length ≤ Body.maxLocals := by
    rw [fresh]
    exact show 1 ≤ Body.maxLocals by decide
  have fits := yields.coding.fits small
  have allowed := yields.allowed
  have narrow := yields.narrow
  have closed := yields.closed (by rw [fresh]; rfl)
  have proper := written.proper.1
  have placed := steady.placed
  rw [place, pooled] at fits narrow
  rw [outer, show (opening source heap).body.locals = Place.script.locals by rw [fresh],
    show (opening source heap).body.depth = 0 by rw [fresh]] at allowed
  rw [place] at placed
  refine ⟨layout, ⟨proper, closed, allowed, narrow, fits, placed, rfl, rfl, rfl⟩, ?_⟩
  rw [compile_eq] at ok ⊢
  dsimp only at ok ⊢
  split at ok
  · obtain rfl := Except.ok.inj ok
    exact routine
  · cases ok

/-- The script of an accepted source is the routine of any tree that its tokens write. -/
theorem script_of_written {script : Routine} (ok : (compile source heap).result = .ok script)
    {ts : List Token} {e : Token} {ends : Bool} {s : Statement}
    (same : Token.scan source = ts ++ [e]) (last : e.kind = .eof)
    (written : StatementWritten .sequence ends s ts) :
    ∃ layout, (Part.script s heap).Fine layout ∧ script = (Part.script s heap).routine layout := by
  obtain ⟨layout, fine, made⟩ := made_of_written ok same last written
  exact ⟨layout, fine, congrArg Prod.fst made⟩

/-- An accepted source is written from a tree, and its script is the routine of this tree. -/
theorem script_of_ok {script : Routine} (ok : (compile source heap).result = .ok script) :
    ∃ layout ts e ends s, Token.scan source = ts ++ [e] ∧ e.kind = .eof ∧
      StatementWritten .sequence ends s ts ∧ (Part.script s heap).Fine layout ∧
        script = (Part.script s heap).routine layout := by
  obtain ⟨-, ts, e, same, last, ends, s, written⟩ := written_of_ok ok
  obtain ⟨layout, fine, built⟩ := script_of_written ok same last written
  exact ⟨layout, ts, e, ends, s, same, last, written, fine, built⟩

/-- A routine that a compiled script can get hold of is that of a part of a program. -/
theorem part_of_ok {script r : Routine} (ok : (compile source heap).result = .ok script)
    (within : script.Within r) : ∃ layout p, Part.Fine layout p ∧ r = p.routine layout := by
  obtain ⟨layout, ts, e, ends, s, -, -, -, fine, rfl⟩ := script_of_ok ok
  exact Library.all.within ⟨layout, _, fine, rfl⟩ within

end Compiler

/-- The routine comes with an accepted source. -/
def Routine.Compiled (r : Routine) : Prop :=
  ∃ source heap script, (compile source heap).result = .ok script ∧ script.Within r

/-- All parts of accepted sources. -/
def Library.compiled : Library where
  holds layout p := p.Fine layout ∧ (p.routine layout).Compiled
  fine h := h.1
  closed h v mem r same := by
    obtain ⟨fine, source, heap, script, ok, within⟩ := h
    obtain ⟨q, declared, rfl⟩ := fine.inner_of_constant mem same
    exact ⟨_, q, ⟨fine.inner declared, source, heap, script, ok, .constant within mem same⟩, rfl⟩

/-- The tokens of the source write the tree. -/
def Statement.Writes (s : Statement) (source : String) : Prop :=
  ∃ ts e ends, Token.scan source = ts ++ [e] ∧ e.kind = .eof ∧ StatementWritten .sequence ends s ts

/-- The part belongs to the tree of an accepted source, and the strings that were there
before are listed under their own characters. -/
def Part.Written (layout : Layout) (p : Part) : Prop :=
  ∃ (source : String) (heap : Heap) (s : Statement), heap.Valid ∧ s.Writes source ∧
    (Part.script s heap).Fine layout ∧
      (compile source heap).result = .ok ((Part.script s heap).routine layout) ∧
        (Part.script s heap).Within layout p

/-- A script is compiled in a pool without constants. -/
theorem Pool.sound_empty {heap : Heap} (valid : heap.Valid) : Pool.Sound ⟨heap, #[]⟩ :=
  ⟨valid, fun v mem => absurd mem (Array.not_mem_empty v)⟩

theorem Part.Fine.sound_within {layout : Layout} {whole p : Part} (h : whole.Fine layout)
    (sound : whole.pool.Sound) (within : whole.Within layout p) : p.pool.Sound := by
  induction within with
  | self => exact sound
  | inner within mem ih => exact (h.within within).sound_inner ih mem

/-- Strings are listed under their own characters while a part of an accepted source is
compiled. -/
theorem Part.Written.sound {layout : Layout} {p : Part} (h : p.Written layout) :
    (p.coded layout).pool.Sound := by
  obtain ⟨source, heap, s, valid, -, fine, -, within⟩ := h
  exact (fine.within within).sound_coded (fine.sound_within (Pool.sound_empty valid) within)

/-- All parts of the trees of accepted sources. -/
def Library.written : Library where
  holds layout p := p.Written layout
  fine h := by
    obtain ⟨_, _, _, -, -, fine, -, within⟩ := h
    exact fine.within within
  closed h v mem r same := by
    obtain ⟨source, heap, s, valid, writes, fine, ok, within⟩ := h
    obtain ⟨q, declared, rfl⟩ := (fine.within within).inner_of_constant mem same
    exact ⟨_, q, ⟨source, heap, s, valid, writes, fine, ok, .inner within declared⟩, rfl⟩

end StackScript
