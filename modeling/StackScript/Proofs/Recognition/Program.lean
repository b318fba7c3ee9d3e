import StackScript.Proofs.Parsing.Function
import StackScript.Proofs.Recognition.Statement
import StackScript.Proofs.Syntax.Grammar

/-!
# Which programs are accepted

A source is compiled without errors only if its tokens derive from the grammar, and if
they do then the first error, should there be one, is not of syntax.
-/

namespace StackScript

/-- Text that is no token derives from nothing. -/
theorem Derives.no_error {symbol : Nonterminal} {ks : List TokenKind} (h : Derives symbol ks) :
    TokenKind.error ∉ ks := by
  have atoms : TokenKind.error ∉ TokenKind.atoms := by decide
  have words : TokenKind.error ∉ [TokenKind.var, TokenKind.const] := by decide
  have binary (op : BinaryOperator) : TokenKind.error ≠ op.kind := by cases op <;> decide
  have unary (op : UnaryOperator) : TokenKind.error ≠ op.kind := by cases op <;> decide
  induction h with
  | @atom k known =>
      have apart : TokenKind.error ≠ k := fun same => atoms (same ▸ known)
      simpa using apart
  | @plain word known =>
      have apart : TokenKind.error ≠ word := fun same => words (same ▸ known)
      simpa using apart
  | @initialized word _ known _ ih =>
      have apart : TokenKind.error ≠ word := fun same => words (same ▸ known)
      simpa [ih] using apart
  | _ => simp_all

namespace Compiler

/-- Tokens were passed over, none of them an error token. -/
def Passes (before after : List Token) : Prop :=
  ∃ passed, before = passed ++ after ∧ ∀ t ∈ passed, t.kind ≠ .error

theorem Passes.refl (ts : List Token) : Passes ts ts := ⟨[], rfl, by simp⟩

theorem Passes.trans {ts us vs : List Token} (h : Passes ts us) (h' : Passes us vs) :
    Passes ts vs := by
  obtain ⟨passed, rfl, fine⟩ := h
  obtain ⟨passed', rfl, fine'⟩ := h'
  exact ⟨passed ++ passed', by simp, List.forall_mem_append.mpr ⟨fine, fine'⟩⟩

/-- If no token but error tokens is left behind a marker then none is. -/
theorem Passes.all {ts us : List Token} {e : Token} (h : Passes (ts ++ [e]) us)
    (proper : e.kind ≠ .error) (none : us.filter (·.kind != .error) = []) :
    ∀ t ∈ ts ++ [e], t.kind ≠ .error := by
  obtain ⟨passed, same, clean⟩ := h
  rcases List.eq_nil_or_concat us with rfl | ⟨us, u, rfl⟩
  · rwa [same, List.append_nil]
  · rw [List.concat_eq_append] at same none
    rw [← List.append_assoc] at same
    obtain ⟨-, rfl⟩ := List.append_singleton_inj.mp same
    simp [proper] at none

theorem passes_fetch {tokens : List Token} {c : Compiler} (quiet : Quiet c (c.fetch tokens)) :
    Passes tokens (c.fetch tokens).unread := by
  cases tokens with
  | nil => exact .refl _
  | cons t rest =>
      unfold fetch at quiet ⊢
      split
      · rename_i bad
        rw [if_pos bad] at quiet
        have taken : Grows c { c with current := t, unread := rest } := .silent rfl id id
        have reported := (quiet.left (taken.trans (grows_reportAt _ _ _)) (grows_fetch _ _)).right
          taken (grows_reportAt _ _ _)
        exact absurd reported (not_quiet_reportAt _ _ _)
      · rename_i fine
        exact ⟨[t], rfl, by simpa using fine⟩

/-- A quiet stretch passes over no error token. -/
theorem Acts.passes {c c' : Compiler} (acts : Acts true c c') :
    Quiet c c' → Passes c.unread c'.unread := by
  refine (acts.lift (R := fun c c' => Grows c c' ∧ (Quiet c c' → Passes c.unread c'.unread))
    (fun c => ⟨.refl c, fun _ => .refl _⟩) ?_ ?_).2
  · rintro a b c ⟨hab, first⟩ ⟨hbc, second⟩
    exact ⟨hab.trans hbc, fun quiet =>
      (first (quiet.left hab hbc)).trans (second (quiet.right hab hbc))⟩
  · intro a b act
    refine ⟨act.acts.grows, fun quiet => ?_⟩
    cases act with
    | read => exact passes_fetch (c := { a with previous := a.current }) quiet
    | complain | report => rw [reportAt_unread]; exact .refl _
    | giveUp | recover | intern | constant | work | beginRoutine => exact .refl _
    | endRoutine => rw [(endRoutine_frame a).2.2.1]; exact .refl _

/-! ## The whole source -/

variable (source : String) (heap : Heap)

/-- The state at the first token of a source. -/
def opening : Compiler := (start (Token.scan source) heap).advance

/-- The state behind the last token of a source. -/
def closing : Compiler := (declarations (Token.scan source) heap).advance

theorem compile_eq : compile source heap =
    { result := if (closing source heap).errors.isEmpty then .ok (closing source heap).endRoutine.1
        else .error (closing source heap).errors
      heap := (closing source heap).endRoutine.2.heap
      completed := (closing source heap).endRoutine.2.completed } := by
  rw [compile]
  simp only [closing, (endRoutine_frame _).2.2.2.1]
  rfl

/-- The grammar sees every token of the source but the error tokens. -/
theorem stream_opening :
    (opening source heap).stream = (Token.scan source).filter (·.kind != .error) := by
  obtain ⟨ts, e, same, last, -⟩ := Token.scan_eq source
  obtain ⟨u, us, found⟩ : ∃ u us, (Token.scan source).filter (·.kind != .error) = u :: us := by
    refine List.exists_cons_of_ne_nil ?_
    rw [same, List.filter_append]
    simp [last]
  rw [found]
  exact stream_fetch _ found

theorem acts_declarations : Acts true (opening source heap) (declarations (Token.scan source) heap) :=
  acts_repeatWhile (acts_phrase _ _) _ _

theorem acts_closing : Acts true (opening source heap) (closing source heap) :=
  (acts_declarations source heap).trans (acts_advance _)

variable {source heap}

/-- No compile panics before its first error. -/
theorem errors_of_panicking {c : Compiler}
    (reached : Acts true (opening source heap) c)
    (panicking : c.panicking = true) :
    c.errors ≠ #[] := by
  intro none
  have begun : Acts true (start (Token.scan source) heap) c := (acts_advance _).trans reached
  have calm := begun.grows.calm rfl (by rw [none]; rfl)
  rw [panicking] at calm
  cases calm

/-- A compile that goes on after an error fails. -/
theorem fails_of_errors {c : Compiler} (recorded : c.errors ≠ #[])
    (rest : Acts true c (closing source heap)) :
    ∃ errors, (compile source heap).result = .error errors := by
  have more := rest.grows.errors
  have some : (closing source heap).errors.isEmpty = false := by
    rw [Array.isEmpty_eq_false_iff, ← Array.size_pos_iff]
    exact Nat.lt_of_lt_of_le (Array.size_pos_iff.mpr recorded) more
  rw [compile_eq, some]
  exact ⟨_, rfl⟩

theorem quiet_of_ok {script : Routine} (ok : (compile source heap).result = .ok script) :
    Quiet (start (Token.scan source) heap) (closing source heap) := by
  rw [compile_eq] at ok
  dsimp only at ok
  split at ok
  · rename_i none
    exact ⟨rfl, by simpa [start] using none⟩
  · cases ok

/-- What is compiled without errors was written from a tree. -/
theorem written_of_ok {script : Routine} (ok : (compile source heap).result = .ok script) :
    (∀ t ∈ Token.scan source, t.kind ≠ .error) ∧
      ∃ ts e, Token.scan source = ts ++ [e] ∧ e.kind = .eof ∧
        ∃ ends s, StatementWritten .sequence ends s ts := by
  have begun := acts_advance (start (Token.scan source) heap)
  have read := acts_declarations source heap
  have quiet := (quiet_of_ok ok).left (begun.grows.trans read.grows) (acts_advance _).grows
  obtain ⟨ts, e, same, last, fine⟩ := Token.scan_eq source
  have stream := stream_opening source heap
  have filtered : (Token.scan source).filter (·.kind != .error) =
      ts.filter (·.kind != .error) ++ [e] := by
    rw [same, List.filter_append]
    simp [last]
  have ended : Ended (opening source heap).stream := by
    rw [stream, filtered]
    exact ⟨_, e, rfl, last, fun t mem => (fine t (List.mem_filter.mp mem).1).1⟩
  have size : (opening source heap).left ≤ (Token.scan source).length := by
    rw [left, stream]
    exact List.length_filter_le ..
  have sequence : Finds (opening source heap) (declarations (Token.scan source) heap) fun ts =>
      (∃ ends s, StatementWritten .sequence ends s ts) ∧
        (!(declarations (Token.scan source) heap).check .eof) = false :=
    finds_sequence (recognizes_all _) (c := opening source heap) _
      (by simp only [depthBound]; omega) (by simp only [depthBound]; omega)
  obtain ⟨us, split, ⟨ends, s, written⟩, stop⟩ :=
    sequence.finds (quiet.right begun.grows read.grows) ended
  have stop : (declarations (Token.scan source) heap).current.kind = .eof := by
    simpa [check] using stop
  -- Nothing is left behind the end marker, error tokens included.
  rw [split] at ended
  have none := ended.stop stop
  have clean : ∀ t ∈ Token.scan source, t.kind ≠ .error := by
    have tokens : (start (Token.scan source) heap).unread = ts ++ [e] := same
    have passes := Acts.passes (begun.trans read) quiet
    rw [tokens] at passes
    rw [same]
    exact passes.all (by rw [last]; decide) none
  have whole := List.filter_eq_self.mpr fun t mem => bne_iff_ne.mpr (clean t mem)
  rw [stream, whole] at split
  exact ⟨clean, us, _, split.trans (by rw [Compiler.stream, none]), stop, ends, s, written⟩

/-- A derivation of the tokens of a source is one of a tree. -/
theorem written_of_derives
    (derives : Derives .program ((Token.scan source).map Token.kind)) :
    (∀ t ∈ Token.scan source, t.kind ≠ .error) ∧
      ∃ ts e, Token.scan source = ts ++ [e] ∧ e.kind = .eof ∧
        ∃ ends s, StatementWritten .sequence ends s ts := by
  refine ⟨fun t mem bad => derives.no_error (bad ▸ List.mem_map_of_mem mem), ?_⟩
  obtain ⟨ts, e, same, last, fine⟩ := Token.scan_eq source
  have legible : Legible (Token.scan source) := by
    rw [same]
    refine List.forall_mem_append.mpr ⟨fun t mem => (fine t mem).2, ?_⟩
    rw [List.forall_mem_singleton]
    intro number
    rw [last] at number
    cases number
  exact derives.hasTree rfl legible

/-- The tokens of a source that write a tree are read to their end, and the tree is compiled. -/
theorem stage_of_written {ts : List Token} {e : Token} {ends : Bool} {s : Statement}
    (clean : ∀ t ∈ Token.scan source, t.kind ≠ .error) (same : Token.scan source = ts ++ [e])
    (last : e.kind = .eof) (written : StatementWritten .sequence ends s ts) :
    Stage (opening source heap) (declarations (Token.scan source) heap) [e]
      (Codes s (opening source heap) (declarations (Token.scan source) heap)) := by
  have whole := List.filter_eq_self.mpr fun t mem => bne_iff_ne.mpr (clean t mem)
  have stream : (opening source heap).stream = ts ++ [e] := by
    rw [stream_opening, whole, same]
  have size : ts.length + 1 = (Token.scan source).length := by
    rw [same, List.length_append, List.length_singleton]
  exact compiles_of_written written (by simp only [depthBound]; omega)
    (by simp only [depthBound]; omega) stream (show e.kind = closingKind true from last)

/-- The first error in the tokens of a tree is not one of syntax. -/
theorem static_of_written {ts : List Token} {e : Token} {ends : Bool} {s : Statement}
    (clean : ∀ t ∈ Token.scan source, t.kind ≠ .error) (same : Token.scan source = ts ++ [e])
    (last : e.kind = .eof) (written : StatementWritten .sequence ends s ts) :
    Static (start (Token.scan source) heap) (closing source heap) := by
  have begun := acts_advance (start (Token.scan source) heap)
  have body : Stage (opening source heap) (declarations (Token.scan source) heap) [e] _ :=
    stage_of_written clean same last written
  refine (static_advance _).trans begun (acts_closing source heap) fun _ => ?_
  exact body.static.trans body.acts (acts_advance _) fun _ => static_advance _

/-- Compiling accepts just the programs of the grammar, as far as syntax goes: what it
accepts is derived, and the first error in what is derived is not one of syntax. -/
theorem compile_decides_grammar (source : String) (heap : Heap) :
    (∀ script, (compile source heap).result = .ok script →
      (∀ t ∈ Token.scan source, t.kind ≠ .error) ∧
        Derives .program ((Token.scan source).map Token.kind)) ∧
    (Derives .program ((Token.scan source).map Token.kind) →
      (∃ script, (compile source heap).result = .ok script) ∨
        ∃ errors first, (compile source heap).result = .error errors ∧
          errors[0]? = some first ∧ first.problem.isStatic = true) := by
  refine ⟨fun script ok => ?_, fun derives => ?_⟩
  · obtain ⟨clean, ts, e, same, last, ends, s, written⟩ := written_of_ok ok
    refine ⟨clean, ?_⟩
    rw [same, List.map_append, List.map_singleton, last]
    exact .program written.derives
  · obtain ⟨clean, ts, e, same, last, ends, s, written⟩ := written_of_derives derives
    have static : Static (start (Token.scan source) heap) (closing source heap) :=
      static_of_written clean same last written
    rw [compile_eq]
    dsimp only
    split
    · exact .inl ⟨_, rfl⟩
    · rename_i some
      have pos : 0 < (closing source heap).errors.size := by
        rwa [Array.size_pos_iff, ← Array.isEmpty_eq_false_iff, ← Bool.not_eq_true]
      exact .inr ⟨_, _, rfl, Array.getElem?_eq_getElem pos,
        static rfl clean _ (Array.getElem?_eq_getElem pos)⟩

end Compiler
end StackScript
