import StackScript.Proofs.Parsing.Errors

/-!
# What a quiet stretch has read

`Finds c c' Q` says that a stretch of a compilation that reports nothing reads tokens
with the property `Q`.  The lemmas put such stretches one behind the other, as the
compiler does; they ask for an end marker behind everything, since the compiler counts
on never reading past it.
-/

namespace StackScript

/-- The last of the tokens is the only end marker. -/
def Ended (ts : List Token) : Prop :=
  ∃ us e, ts = us ++ [e] ∧ e.kind = .eof ∧ ∀ t ∈ us, t.kind ≠ .eof

theorem Ended.ne_nil {ts : List Token} (h : Ended ts) : ts ≠ [] := by
  obtain ⟨us, e, rfl, -⟩ := h
  simp

/-- Behind any token but the end marker there is another one. -/
theorem Ended.tail {t : Token} {ts : List Token} (h : Ended (t :: ts)) (more : t.kind ≠ .eof) :
    Ended ts := by
  obtain ⟨us, e, same, last, none⟩ := h
  cases us with
  | nil =>
      obtain ⟨rfl, -⟩ := List.cons.inj same
      exact absurd last more
  | cons u us =>
      obtain ⟨-, rfl⟩ := List.cons.inj same
      exact ⟨us, e, rfl, last, fun t mem => none t (List.mem_cons_of_mem _ mem)⟩

/-- What is left after reading some of the tokens still ends with the marker. -/
theorem Ended.rest {ts us : List Token} (h : Ended (ts ++ us)) (more : us ≠ []) : Ended us := by
  induction ts with
  | nil => exact h
  | cons t ts ih =>
      refine ih (h.tail fun last => ?_)
      obtain ⟨vs, e, same, -, none⟩ := h
      cases vs with
      | nil =>
          obtain ⟨-, empty⟩ := List.cons.inj same
          exact more (List.append_eq_nil_iff.mp empty).2
      | cons v vs =>
          obtain ⟨rfl, -⟩ := List.cons.inj same
          exact none _ (List.mem_cons_self ..) last

/-- The end marker is the last token. -/
theorem Ended.stop {ts us : List Token} {e : Token} (h : Ended (ts ++ e :: us))
    (last : e.kind = .eof) : us = [] := by
  obtain ⟨vs, e', same, -, none⟩ := h.rest (List.cons_ne_nil e us)
  cases vs with
  | nil => exact (List.cons.inj same).2
  | cons v vs =>
      obtain ⟨rfl, -⟩ := List.cons.inj same
      exact absurd last (none _ (List.mem_cons_self ..))

/-- Nothing is behind the end marker, and something is behind any other token. -/
theorem Ended.tail_eq_nil {t : Token} {ts : List Token} (h : Ended (t :: ts)) :
    ts = [] ↔ t.kind = .eof := by
  constructor
  · intro none
    by_contra more
    exact (h.tail more).ne_nil none
  · intro last
    have ended : Ended ([] ++ t :: ts) := h
    exact ended.stop last

namespace Compiler

/-- Between two states the compiler worked, and if it reported nothing then it read tokens
with the property. -/
structure Finds (c c' : Compiler) (Q : List Token → Prop) : Prop where
  acts : Acts true c c'
  finds : Quiet c c' → Ended c.stream → ∃ ts, c.stream = ts ++ c'.stream ∧ Q ts

section

variable {a b c : Compiler} {Q R : List Token → Prop}

theorem Finds.map (h : Finds a b Q) (f : ∀ ts, Q ts → R ts) : Finds a b R := by
  refine ⟨h.acts, fun quiet ended => ?_⟩
  obtain ⟨ts, stream, q⟩ := h.finds quiet ended
  exact ⟨ts, stream, f ts q⟩

/-- The second stretch may count on what the first one has read. -/
theorem Finds.bind {R : List Token → List Token → Prop} (h : Finds a b Q)
    (acts : Acts true b c)
    (h' : ∀ ts, a.stream = ts ++ b.stream → Q ts → Finds b c (R ts)) :
    Finds a c fun us => ∃ ts vs, us = ts ++ vs ∧ Q ts ∧ R ts vs := by
  refine ⟨h.acts.trans acts, fun quiet ended => ?_⟩
  obtain ⟨first, second⟩ := quiet.split h.acts acts
  obtain ⟨ts, stream, q⟩ := h.finds first ended
  have ended' : Ended b.stream := by
    rw [stream] at ended
    exact ended.rest (List.cons_ne_nil _ _)
  obtain ⟨us, stream', r⟩ := (h' ts stream q).finds second ended'
  exact ⟨ts ++ us, by rw [stream, stream', List.append_assoc], ts, us, rfl, q, r⟩

/-- What reads nothing may follow. -/
theorem Finds.still (h : Finds a b Q) (acts : Acts false b c)
    (f : c.current = b.current → ∀ ts, Q ts → R ts) : Finds a c R := by
  refine ⟨h.acts.trans acts.toReading, fun quiet ended => ?_⟩
  obtain ⟨ts, stream, q⟩ := h.finds (quiet.split h.acts acts.toReading).1 ended
  exact ⟨ts, by rw [stream, acts.stream], f acts.steps.still.1 ts q⟩

/-- What reads nothing may go before. -/
theorem Finds.after (acts : Acts false a b) (h : b.current = a.current → Finds b c Q)
    (following : Acts true b c) : Finds a c Q := by
  refine ⟨acts.toReading.trans following, fun quiet ended => ?_⟩
  rw [← acts.stream] at ended ⊢
  exact (h acts.steps.still.1).finds (quiet.split acts.toReading following).2 ended

theorem finds_nothing (acts : Acts false a b) : Finds a b (· = []) :=
  ⟨acts.toReading, fun _ _ => ⟨[], acts.stream.symm, rfl⟩⟩

/-- Any token but the end marker is taken off the stream. -/
theorem finds_advance (c : Compiler) (more : c.current.kind ≠ .eof) :
    Finds c c.advance (· = [c.current]) := by
  refine ⟨acts_advance c, fun _ ended => ⟨_, ?_, rfl⟩⟩
  obtain ⟨u, rest, next⟩ := List.exists_cons_of_ne_nil (ended.tail more).ne_nil
  have stream : c.stream = c.current :: u :: rest := congrArg (c.current :: ·) next
  rw [stream_advance stream, stream]
  rfl

theorem finds_check {c : Compiler} {kind : TokenKind} (there : c.check kind = true)
    (more : kind ≠ .eof) : Finds c c.advance fun ts => ∃ t, ts = [t] ∧ t.kind = kind := by
  have known : c.current.kind = kind := by simpa [check] using there
  refine (finds_advance c (by rw [known]; exact more)).map ?_
  rintro _ rfl
  exact ⟨_, rfl, known⟩

theorem finds_consume (c : Compiler) {kind : TokenKind} (more : kind ≠ .eof) (problem : Problem) :
    Finds c (c.consume kind problem) fun ts => ∃ t, ts = [t] ∧ t.kind = kind := by
  refine ⟨acts_consume c kind problem, fun quiet ended => ?_⟩
  have there := check_of_quiet_consume quiet
  rw [consume_of_check there] at quiet ⊢
  exact (finds_check there more).finds quiet ended

/-- A report is not quiet. -/
theorem finds_report (acts : Acts true a b) {token : Token} {problem : Problem} :
    Finds a (b.reportAt token problem) Q :=
  ⟨acts.trans (Act.complain _ _ _).acts, fun quiet =>
    absurd (quiet.split acts (Act.complain _ _ _).acts).2 (not_quiet_reportAt _ _ _)⟩

end

/-- The tokens that are left, as fuel for what is still to be read. -/
abbrev left (c : Compiler) : Nat := c.stream.length

theorem left_of_append {c c' : Compiler} {ts : List Token} (h : c.stream = ts ++ c'.stream) :
    c.left = ts.length + c'.left := by
  simp only [left, h, List.length_append]

end Compiler
end StackScript
