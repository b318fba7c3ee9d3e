import StackScript.Proofs.Parsing.Upkeep
import StackScript.Proofs.Token.Places

/-!
# Where errors are reported

Errors are reported at tokens of the source, and in its order.  Right after a recovery the
last error may lie behind the token read last, so a state is `Loose` between phrases and
`Firm` within them: only a firm state may report at the token read last, and reading a
token or reporting at the current one makes a state firm.

These two are an upkeep of the grammar, so they hold along every compilation.
-/

namespace StackScript

/-- An error is reported at a token. -/
structure CompileError.At (e : CompileError) (t : Token) : Prop where
  span : e.span = t.span
  line : e.line = t.line
  lexical : t.kind = .error → e.location = .lexical ∧ e.message = t.lexeme
  atEnd : t.kind = .eof → e.location = .atEnd
  token : t.kind ≠ .error → t.kind ≠ .eof → e.location = .token t.lexeme

theorem CompileError.at_of {t : Token} {problem : Problem}
    (message : t.kind = .error → problem.message = t.lexeme) :
    CompileError.At ⟨t.line, Compiler.locationOf t, problem, t.span⟩ t where
  span := rfl
  line := rfl
  lexical bad := ⟨by simp [Compiler.locationOf, bad], message bad⟩
  atEnd last := by simp [Compiler.locationOf, last]
  token proper more := by
    unfold Compiler.locationOf
    split
    · contradiction
    · contradiction
    · rfl

/-- Tokens as a scan makes them: they stand in the order of the text, the end marker
last. -/
structure Scanned (S : List Token) : Prop where
  ended : Ended S
  sorted : S.Pairwise (·.span.start ≤ ·.span.start)

theorem scanned_scan (source : String) : Scanned (Token.scan source) := by
  obtain ⟨ts, e, same, last, fine⟩ := Token.scan_eq source
  exact ⟨⟨ts, e, same, last, fun t mem => (fine t mem).1⟩, Token.pairwise_scan source⟩

/-- What is left of scanned tokens is as scanned. -/
theorem Scanned.suffix {S ts : List Token} (h : Scanned S) (left : ts <:+ S) (more : ts ≠ []) :
    Scanned ts := by
  obtain ⟨passed, rfl⟩ := left
  exact ⟨h.ended.rest more, (List.pairwise_append.mp h.sorted).2.1⟩

namespace Compiler

/-- Errors are at tokens, in their order, and up to some place. -/
structure Noted (S : List Token) (limit : Nat) (errors : Array CompileError) : Prop where
  located : ∀ e ∈ errors, ∃ t ∈ S, e.At t
  sorted : errors.toList.Pairwise (·.span.start ≤ ·.span.start)
  before : ∀ e ∈ errors, e.span.start ≤ limit

namespace Noted

variable {S : List Token} {limit limit' : Nat} {errors : Array CompileError}

theorem mono (h : Noted S limit errors) (le : limit ≤ limit') : Noted S limit' errors :=
  ⟨h.located, h.sorted, fun e mem => Nat.le_trans (h.before e mem) le⟩

/-- One more error, at a token that is not before the others. -/
theorem push (h : Noted S limit errors) {t : Token} {e : CompileError} (mem : t ∈ S)
    (at_ : e.At t) (behind : limit ≤ t.span.start) :
    Noted S t.span.start (errors.push e) where
  located e' mem' := by
    rcases Array.mem_push.mp mem' with old | rfl
    · exact h.located e' old
    · exact ⟨t, mem, at_⟩
  sorted := by
    rw [Array.toList_push, List.pairwise_append]
    refine ⟨h.sorted, List.pairwise_singleton .., fun e' old => ?_⟩
    rw [List.forall_mem_singleton, at_.span]
    exact Nat.le_trans (h.before e' (Array.mem_toList_iff.mp old)) behind
  before e' mem' := by
    rcases Array.mem_push.mp mem' with old | rfl
    · exact Nat.le_trans (h.before e' old) behind
    · rw [at_.span]

end Noted

/-- A state between phrases with at most `n` tokens left behind the current one. -/
structure Loose (S : List Token) (n : Nat) (c : Compiler) : Prop where
  rest : c.current :: c.unread <:+ S
  proper : c.current.kind ≠ .error
  size : c.unread.length ≤ n
  bounded : c.exhausted = false
  noted : Noted S c.current.span.start c.errors

/-- Nothing is behind the token read last: an error may be reported there. -/
structure Anchored (S : List Token) (c : Compiler) : Prop where
  mem : c.previous ∈ S
  proper : c.previous.kind ≠ .error
  before : c.previous.span.start ≤ c.current.span.start
  noted : Noted S c.previous.span.start c.errors

/-- A state within a phrase. -/
structure Firm (S : List Token) (n : Nat) (c : Compiler) : Prop extends Loose S n c where
  anchored : c.panicking = true ∨ Anchored S c

section

variable {S : List Token} {n m : Nat} {c c' : Compiler}

theorem Loose.mono (h : Loose S n c) (le : n ≤ m) : Loose S m c :=
  { h with size := Nat.le_trans h.size le }

theorem Firm.mono (h : Firm S n c) (le : n ≤ m) : Firm S m c :=
  ⟨h.toLoose.mono le, h.anchored⟩

theorem Loose.mem (h : Loose S n c) : c.current ∈ S := h.rest.subset (List.mem_cons_self ..)

/-- A step that neither reads nor reports. -/
theorem Loose.silent (h : Loose S n c) (current : c'.current = c.current)
    (unread : c'.unread = c.unread) (errors : c'.errors = c.errors)
    (exhausted : c'.exhausted = c.exhausted) : Loose S n c' := by
  refine ⟨?_, ?_, ?_, ?_, ?_⟩
  · rw [current, unread]
    exact h.rest
  · rw [current]
    exact h.proper
  · rw [unread]
    exact h.size
  · rw [exhausted]
    exact h.bounded
  · rw [current, errors]
    exact h.noted

theorem Firm.silent (h : Firm S n c) (current : c'.current = c.current)
    (previous : c'.previous = c.previous) (unread : c'.unread = c.unread)
    (errors : c'.errors = c.errors) (exhausted : c'.exhausted = c.exhausted)
    (panicking : c'.panicking = c.panicking) : Firm S n c' := by
  refine ⟨h.toLoose.silent current unread errors exhausted, ?_⟩
  rcases h.anchored with panic | anchored
  · exact .inl (panicking.trans panic)
  · refine .inr ⟨?_, ?_, ?_, ?_⟩
    · rw [previous]
      exact anchored.mem
    · rw [previous]
      exact anchored.proper
    · rw [previous, current]
      exact anchored.before
    · rw [previous, errors]
      exact anchored.noted

/-! ## Reports -/

/-- A report at one of the tokens at hand, where nothing is behind it. -/
theorem Loose.reportAt (h : Loose S n c) {t : Token} (problem : Problem) (proper : t.kind ≠ .error)
    (free : c.panicking = true ∨
      t ∈ S ∧ t.span.start ≤ c.current.span.start ∧ Noted S t.span.start c.errors) :
    Firm S n (c.reportAt t problem) := by
  unfold Compiler.reportAt
  split
  · exact ⟨h, .inl ‹_›⟩
  · rename_i calm
    obtain ⟨mem, before, noted⟩ := free.resolve_left calm
    have here : CompileError.At ⟨t.line, locationOf t, problem, t.span⟩ t :=
      CompileError.at_of fun bad => absurd bad proper
    have more := noted.push mem here (Nat.le_refl _)
    exact ⟨{ h with noted := more.mono before }, .inl rfl⟩

theorem Loose.reportCurrent (h : Loose S n c) (problem : Problem) :
    Firm S n (c.reportAt c.current problem) :=
  h.reportAt problem h.proper (.inr ⟨h.mem, Nat.le_refl _, h.noted⟩)

theorem Firm.report (h : Firm S n c) (problem : Problem) :
    Firm S n (c.reportAt c.previous problem) := by
  rcases h.anchored with panic | anchored
  · unfold Compiler.reportAt
    rw [if_pos panic]
    exact h
  · exact h.toLoose.reportAt problem anchored.proper
      (.inr ⟨anchored.mem, anchored.before, anchored.noted⟩)

theorem Act.firm (act : Act false c c') (h : Firm S n c) : Firm S n c' := by
  cases act with
  | report _ near =>
      rcases near with rfl | rfl
      · exact h.report _
      · exact h.toLoose.reportCurrent _
  | intern | constant | work | beginRoutine => exact h.silent rfl rfl rfl rfl rfl rfl
  | endRoutine =>
      obtain ⟨current, previous, unread, errors, panicking, exhausted⟩ := endRoutine_frame c
      exact h.silent current previous unread errors exhausted panicking

/-! ## Reading -/

section Reading

variable (scanned : Scanned S)
include scanned

/-- At the end marker nothing is left, and anywhere else something is. -/
theorem Loose.unread_eq_nil (h : Loose S n c) : c.unread = [] ↔ c.current.kind = .eof :=
  (scanned.suffix h.rest (List.cons_ne_nil _ _)).ended.tail_eq_nil

theorem Loose.eof_of_zero (h : Loose S 0 c) : c.current.kind = .eof :=
  (h.unread_eq_nil scanned).mp (List.length_eq_zero_iff.mp (Nat.le_zero.mp h.size))

/-- Fetching stops at a proper token; what is reported on the way is in order.  The state is
firm if the token read last was the one before. -/
theorem loose_fetch {tokens : List Token} {limit : Nat} (c : Compiler) (left : tokens <:+ S)
    (more : tokens ≠ []) (size : tokens.length ≤ n + 1) (bounded : c.exhausted = false)
    (before : ∀ t ∈ tokens, limit ≤ t.span.start) (noted : Noted S limit c.errors) :
    Loose S n (c.fetch tokens) ∧
      (c.panicking = true ∨
          c.previous ∈ S ∧ c.previous.kind ≠ .error ∧ c.previous.span.start = limit →
        Firm S n (c.fetch tokens)) := by
  induction tokens generalizing c limit n with
  | nil => exact absurd rfl more
  | cons token rest ih =>
      have mem : token ∈ S := left.subset (List.mem_cons_self ..)
      have whole := scanned.suffix left more
      have near := before token (List.mem_cons_self ..)
      rw [List.length_cons] at size
      unfold fetch
      dsimp only
      split
      · rename_i bad
        have some : rest ≠ [] := (whole.ended.tail (by rw [bad]; decide)).ne_nil
        -- an error token is reported and skipped, which is what puts the compiler into panic
        have reported (c : Compiler) (noted : Noted S limit c.errors) (fine : c.exhausted = false) :
            Noted S token.span.start (c.reportAt token (.lexical token.lexeme)).errors ∧
              (c.reportAt token (.lexical token.lexeme)).panicking = true ∧
              (c.reportAt token (.lexical token.lexeme)).exhausted = false := by
          unfold Compiler.reportAt
          split
          · exact ⟨noted.mono near, ‹_›, fine⟩
          · exact ⟨noted.push mem (CompileError.at_of fun _ => rfl) near, rfl, fine⟩
        obtain ⟨noted, panic, bounded⟩ :=
          reported { c with current := token, unread := rest } noted bounded
        obtain ⟨loose, firm⟩ := ih (n := n) _ ((List.suffix_cons ..).trans left) some (by omega) bounded
          (List.pairwise_cons.mp whole.sorted).1 noted
        exact ⟨loose, fun _ => firm (.inl panic)⟩
      · rename_i proper
        have loose : Loose S n { c with current := token, unread := rest } :=
          ⟨left, proper, Nat.le_of_succ_le_succ size, bounded, noted.mono near⟩
        refine ⟨loose, fun calm => ⟨loose, calm.imp_right ?_⟩⟩
        rintro ⟨known, fine, rfl⟩
        exact ⟨known, fine, near, noted⟩

/-- Reading makes a state firm. -/
theorem Loose.advance (h : Loose S n c) : Firm S (n - 1) c.advance := by
  have whole := scanned.suffix h.rest (List.cons_ne_nil _ _)
  by_cases none : c.unread = []
  · have same : c.advance = { c with previous := c.current } := by
      simp [Compiler.advance, fetch, none]
    have size : c.unread.length ≤ n - 1 := by simp [none]
    rw [same]
    exact ⟨{ h with size }, .inr ⟨h.mem, h.proper, Nat.le_refl _, h.noted⟩⟩
  · have some := List.length_pos_iff.mpr none
    have size := h.size
    exact (loose_fetch (n := n - 1) scanned { c with previous := c.current }
      ((List.suffix_cons ..).trans h.rest) none (by omega) h.bounded
      (List.pairwise_cons.mp whole.sorted).1 h.noted).2 (.inr ⟨h.mem, h.proper, rfl⟩)

/-- Errors at tokens and in their order are kept up along the grammar. -/
def orderly : Upkeep where
  Loose := Loose S
  Firm := Firm S
  loose := Firm.toLoose
  loose_mono := Loose.mono
  firm_mono := Firm.mono
  ended h := h.eof_of_zero scanned
  advance h := h.advance scanned
  reportCurrent := Loose.reportCurrent
  report := Firm.report
  recover h := h.silent rfl rfl rfl rfl
  act := Act.firm

end Reading

end

/-! ## Whole sources -/

section

variable (source : String) (heap : Heap)

theorem loose_opening :
    Loose (Token.scan source) (Token.scan source).length (opening source heap) := by
  have scanned := scanned_scan source
  exact (loose_fetch scanned { start (Token.scan source) heap with previous := _ }
    (List.suffix_refl _) scanned.ended.ne_nil (Nat.le_succ _) rfl (fun t _ => Nat.zero_le _)
    ⟨by simp [start], by simp [start], by simp [start]⟩).1

theorem firm_closing :
    Firm (Token.scan source) (Token.scan source).length (closing source heap) := by
  have scanned := scanned_scan source
  have enough : 2 * (Token.scan source).length + 3 ≤ depthBound (Token.scan source) := by
    simp only [depthBound]
    omega
  obtain ⟨-, declared⟩ := (orderly scanned).meets_declarations enough (Nat.le_refl _)
    (loose_opening source heap)
  exact declared.advance.less

/-- The bounds on nesting and on loops are never reached, whatever the source. -/
theorem closing_bounded : (closing source heap).exhausted = false :=
  (firm_closing source heap).bounded

end

/-- A source in which errors are reported does not compile. -/
theorem failed_of_size {source : String} {heap : Heap} {n : Nat}
    (some : (closing source heap).errors.size = n + 1) :
    (compile source heap).result = .error (closing source heap).errors := by
  rw [compile_eq]
  refine if_neg fun none => ?_
  rw [Array.isEmpty_iff_size_eq_zero.mp none] at some
  cases some

/-- The errors of a source that does not compile are at its tokens, in their order. -/
theorem noted_of_failed {source : String} {heap : Heap} {errors : Array CompileError}
    (failed : (compile source heap).result = .error errors) :
    Noted (Token.scan source) (closing source heap).current.span.start errors := by
  have noted := (firm_closing source heap).noted
  rw [compile_eq] at failed
  dsimp only at failed
  split at failed
  · cases failed
  · cases failed
    exact noted

/-- Every error of a source that does not compile is at one of its tokens, and the errors
stand in the order of the source. -/
theorem errors_located (source : String) (heap : Heap) {errors : Array CompileError}
    (failed : (compile source heap).result = .error errors) :
    (∀ e ∈ errors, ∃ t ∈ Token.scan source, e.At t) ∧
      errors.toList.Pairwise fun e e' => e.span.start ≤ e'.span.start := by
  have noted := noted_of_failed failed
  exact ⟨noted.located, noted.sorted⟩

/-- A character that is no token, and a statement that lacks its end. -/
theorem errors_located_sample : ∃ errors,
    (compile "print @; print 1" .empty).result = .error errors ∧ errors.size = 2 ∧
      (∀ e ∈ errors, ∃ t ∈ Token.scan "print @; print 1", e.At t) ∧
        errors.toList.Pairwise fun e e' => e.span.start ≤ e'.span.start := by
  have two : (closing "print @; print 1" .empty).errors.size = 2 := by decide +kernel
  have failed := failed_of_size two
  exact ⟨_, failed, two, errors_located _ _ failed⟩

end Compiler
end StackScript
