import StackScript.Proofs.Code.Live
import StackScript.Proofs.Code.Statement
import StackScript.Proofs.Code.Writing

/-!
# Compiling in stages

A statement is compiled in stages, each of which reads some tokens and writes some
cells.  `Stage` puts stages together without speaking of errors each time, and
`Coding` says which cells a stage writes, depending on the place it is at.
-/

namespace StackScript

/-- A way to write code, which depends on the place and on the pool. -/
abbrev Coder := Place → Pool → Coded

namespace Coder

/-- Nothing is written. -/
def none : Coder := fun place pool => ⟨[], place.locals, pool⟩

@[simp] theorem none_apply (place : Place) (pool : Pool) :
    none place pool = ⟨[], place.locals, pool⟩ := rfl

/-- One after the other. -/
def seq (f g : Coder) : Coder := fun place pool =>
  let first := f place pool
  let rest := g (place.knowing first.locals) first.pool
  ⟨first.cells ++ rest.cells, rest.locals, rest.pool⟩

@[simp] theorem seq_apply (f g : Coder) (place : Place) (pool : Pool) :
    (f.seq g) place pool =
      ⟨(f place pool).cells ++ (g (place.knowing (f place pool).locals) (f place pool).pool).cells,
        (g (place.knowing (f place pool).locals) (f place pool).pool).locals,
        (g (place.knowing (f place pool).locals) (f place pool).pool).pool⟩ := rfl

/-- The given instructions. -/
def emit (code : List Asm) : Coder := fun place pool => ⟨ops code, place.locals, pool⟩

@[simp] theorem emit_apply (code : List Asm) (place : Place) (pool : Pool) :
    emit code place pool = ⟨ops code, place.locals, pool⟩ := rfl

/-- An expression. -/
def value (e : Expression) : Coder := fun place pool =>
  ⟨ops (e.code place.locals pool).1, place.locals, (e.code place.locals pool).2⟩

@[simp] theorem value_apply (e : Expression) (place : Place) (pool : Pool) :
    value e place pool =
      ⟨ops (e.code place.locals pool).1, place.locals, (e.code place.locals pool).2⟩ := rfl

end Coder

namespace Compiler

/-- The place at which a state compiles. -/
def place (c : Compiler) : Place :=
  ⟨c.body.locals, c.body.depth, c.body.loops.head?.map LoopRecord.depth⟩

/-- Between two states the code of a coder was written. -/
def Coding (c c' : Compiler) (coder : Coder) : Prop :=
  Writes c c' (coder c.place c.pool).cells (coder c.place c.pool).locals (coder c.place c.pool).pool

/-- Between two states the compiler worked.  If nothing was reported then it read up to
the given tokens, and something holds; the first report was not of a syntax error. -/
structure Stage (c c' : Compiler) (after : List Token) (Q : Prop) : Prop where
  acts : Acts true c c'
  static : Static c c'
  holds : Quiet c c' → c'.stream = after ∧ Q

section

variable {a b c c' : Compiler} {between after : List Token} {Q R : Prop} {f g : Coder}

theorem Stage.map (h : Stage c c' after Q) (f : Q → R) : Stage c c' after R :=
  ⟨h.acts, h.static, fun quiet => (h.holds quiet).imp id f⟩

theorem Stage.and (h : Stage c c' after Q) (h' : Stage c c' after R) :
    Stage c c' after (Q ∧ R) :=
  ⟨h.acts, h.static, fun quiet => ⟨(h.holds quiet).1, (h.holds quiet).2, (h'.holds quiet).2⟩⟩

/-- The second stage may count on what the first one leaves. -/
theorem Stage.bind (h : Stage a b between Q) (acts : Acts true b c)
    (h' : b.stream = between → Q → Stage b c after R) : Stage a c after (Q ∧ R) := by
  refine ⟨h.acts.trans acts, h.static.trans h.acts acts fun quiet => ?_, fun quiet => ?_⟩
  · obtain ⟨stream, q⟩ := h.holds quiet
    exact (h' stream q).static
  obtain ⟨first, second⟩ := quiet.split h.acts acts
  obtain ⟨stream, q⟩ := h.holds first
  obtain ⟨stream', r⟩ := (h' stream q).holds second
  exact ⟨stream', q, r⟩

/-- Often all that counts is which tokens it leaves. -/
theorem Stage.andThen (h : Stage a b between Q) (acts : Acts true b c)
    (h' : b.stream = between → Stage b c after R) : Stage a c after (Q ∧ R) :=
  h.bind acts fun stream _ => h' stream

/-- A stage that does not read. -/
theorem stage_still (stream : c.stream = after) (acts : Acts false c c')
    (holds : Quiet c c' → Q) : Stage c c' after Q :=
  ⟨acts.toReading, acts.static, fun quiet => ⟨acts.stream.trans stream, holds quiet⟩⟩

theorem Writes.place {cells : List Cell} {locals : List LocalVariable} {p : Pool}
    (h : Writes c c' cells locals p) : c'.place = c.place.knowing locals := by
  have loops : c'.body.loops.head?.map LoopRecord.depth =
      c.body.loops.head?.map LoopRecord.depth := by
    rw [h.loops]
    cases c.body.loops <;> rfl
  simp only [Compiler.place, Place.knowing, h.locals, h.depth, loops]

theorem Coding.seq (hab : Coding a b f) (hbc : Coding b c g) : Coding a c (f.seq g) := by
  have rest := hbc
  unfold Coding at rest
  rw [hab.place, hab.pooled] at rest
  exact hab.trans rest

/-- What counts is the code at the place. -/
theorem Coding.of_eq (h : Coding c c' f) (same : f c.place c.pool = g c.place c.pool) :
    Coding c c' g := by
  unfold Coding at h ⊢
  rwa [same] at h

theorem coding_of_emits {code : List Asm} (h : Emits c c' code c.pool) :
    Coding c c' (.emit code) := h.writes

theorem coding_none (h : Emits c c' [] c.pool) : Coding c c' .none := h.writes

theorem Parsed.stage {e : Expression} (h : Parsed e c c' after) :
    Stage c c' after (Coding c c' (.value e) ∧ Known c.outer c.body.locals e.names) :=
  ⟨h.acts, h.static, fun quiet =>
    ⟨h.stream, (h.translates quiet).emits.writes, (h.translates quiet).known⟩⟩

/-- Reading a token writes nothing. -/
theorem stage_advance {t u : Token} {rest : List Token} (stream : c.stream = t :: u :: rest) :
    Stage c c.advance (u :: rest) (Coding c c.advance .none) :=
  ⟨acts_advance c, static_advance c, fun _ =>
    ⟨stream_advance stream, coding_none (emits_advance c)⟩⟩

theorem stage_consume {t u : Token} {rest : List Token} {kind : TokenKind}
    (stream : c.stream = t :: u :: rest) (there : t.kind = kind) (problem : Problem) :
    Stage c (c.consume kind problem) (u :: rest)
      (Coding c (c.consume kind problem) .none) :=
  ⟨acts_consume c kind problem, static_consume (by simp [check_of_stream stream, there]) _, fun _ =>
    ⟨stream_consume stream there problem, coding_none (emits_consume c kind problem)⟩⟩

theorem stage_emit {op : Opcode} (stream : c.stream = after) (plain : op.operandWidth = 0) :
    Stage c (c.emit op) after (Coding c (c.emit op) (.emit [.plain op])) :=
  stage_still stream (acts_emit c op) fun _ => coding_of_emits (emits_emit c op plain)

theorem stage_emitJump {op : Opcode} (stream : c.stream = after) (jump : op.operandWidth = 2) :
    Stage c (c.emitJump op) after (Coding c (c.emitJump op) (.emit [⟨op, maxJump⟩])) :=
  stage_still stream (acts_emitJump c op) fun _ => coding_of_emits (emits_emitJump c op jump)

end

end Compiler
end StackScript
