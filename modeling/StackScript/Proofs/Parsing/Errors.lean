import StackScript.Proofs.Parsing.Steps

/-!
# No phrase forgets an error

Errors are only ever added, and a panic begins with an error; `Grows` is that
relation, and it holds across every phrase.  `Quiet` singles out the stretches of
a compilation in which nothing was reported, so a compilation that ends without
errors was quiet all along.  `Static` says of a stretch that was not quiet that at
least its first error has nothing to do with syntax.
-/

namespace StackScript
namespace Compiler

/-- Between two states errors were only added, a panic began with an error, and a
bound once reached was not forgotten. -/
structure Grows (c c' : Compiler) : Prop where
  errors : c.errors.size ≤ c'.errors.size
  kept : ∀ i < c.errors.size, c'.errors[i]? = c.errors[i]?
  calm : c.panicking = false → c'.errors.size = c.errors.size → c'.panicking = false
  exhausted : c.exhausted = true → c'.exhausted = true

/-- Nothing was reported between two states, and not because of a panic. -/
def Quiet (c c' : Compiler) : Prop :=
  c.panicking = false ∧ c'.errors.size = c.errors.size

/-- A step that reports nothing. -/
theorem Grows.silent {c c' : Compiler} (errors : c'.errors = c.errors)
    (panicking : c.panicking = false → c'.panicking = false)
    (exhausted : c.exhausted = true → c'.exhausted = true) : Grows c c' :=
  ⟨Nat.le_of_eq (by rw [errors]), fun _ _ => by rw [errors], fun calm _ => panicking calm,
    exhausted⟩

theorem Grows.refl (c : Compiler) : Grows c c := .silent rfl id id

theorem Grows.trans {a b c : Compiler} (hab : Grows a b) (hbc : Grows b c) : Grows a c := by
  have before := hab.errors
  have after := hbc.errors
  refine ⟨Nat.le_trans before after, fun i old => ?_, fun calm same => ?_,
    hbc.exhausted ∘ hab.exhausted⟩
  · rw [hbc.kept i (Nat.lt_of_lt_of_le old before), hab.kept i old]
  · exact hbc.calm (hab.calm calm (by omega)) (by omega)

theorem Quiet.left {a b c : Compiler} (h : Quiet a c) (hab : Grows a b) (hbc : Grows b c) :
    Quiet a b := by
  have := hab.errors
  have := hbc.errors
  exact ⟨h.1, by have := h.2; omega⟩

theorem Quiet.right {a b c : Compiler} (h : Quiet a c) (hab : Grows a b) (hbc : Grows b c) :
    Quiet b c := by
  have left := h.left hab hbc
  exact ⟨hab.calm left.1 left.2, h.2.trans left.2.symm⟩

/-! ## Every step -/

/-- A report out of panic adds an error. -/
theorem errors_reportAt (c : Compiler) (token : Token) (problem : Problem)
    (calm : c.panicking = false) :
    (c.reportAt token problem).errors =
      c.errors.push ⟨token.line, locationOf token, problem, token.span⟩ := by
  simp [reportAt, calm]

/-- A report ends in panic, whether it adds an error or not. -/
theorem panicking_report (c : Compiler) (problem : Problem) :
    (c.report problem).panicking = true := by
  cases panicking : c.panicking with
  | true => simp [report, reportAt, panicking]
  | false => simp [report, reportAt, panicking]

theorem grows_reportAt (c : Compiler) (token : Token) (problem : Problem) :
    Grows c (c.reportAt token problem) := by
  cases calm : c.panicking with
  | true => simpa [reportAt, calm] using Grows.refl c
  | false =>
      have more := errors_reportAt c token problem calm
      have size := congrArg Array.size more
      rw [Array.size_push] at size
      refine ⟨by omega, fun i old => ?_, fun _ same => by omega, fun spent => ?_⟩
      · rw [more, Array.getElem?_push, if_neg (Nat.ne_of_lt old)]
      · simpa [reportAt, calm] using spent

theorem grows_fetch (tokens : List Token) (c : Compiler) : Grows c (c.fetch tokens) := by
  induction tokens generalizing c with
  | nil => exact .silent rfl id id
  | cons token tokens ih =>
      unfold fetch
      have taken : Grows c { c with current := token, unread := tokens } := .silent rfl id id
      split
      · exact (taken.trans (grows_reportAt _ _ _)).trans (ih _)
      · exact taken

theorem grows_advance (c : Compiler) : Grows c c.advance :=
  Grows.trans (b := { c with previous := c.current }) (.silent rfl id id) (grows_fetch c.unread _)

theorem Step.grows {c c' : Compiler} (h : Step true c c') : Grows c c' := by
  cases h with
  | read => exact grows_advance c
  | report => exact grows_reportAt _ _ _
  | giveUp => exact .silent rfl id fun _ => rfl
  | recover => exact .silent rfl (fun _ => rfl) id
  | intern | constant | work | beginRoutine => exact .silent rfl id id
  | endRoutine =>
      obtain ⟨-, -, -, errors, panicking, exhausted⟩ := endRoutine_frame c
      exact .silent errors (by rw [panicking]; exact id) (by rw [exhausted]; exact id)

theorem Steps.grows {c c' : Compiler} (h : Steps true c c') : Grows c c' :=
  h.lift Grows.refl Grows.trans Step.grows

theorem Acts.grows {reading : Bool} {c c' : Compiler} (h : Acts reading c c') : Grows c c' := by
  refine h.lift Grows.refl Grows.trans fun act => ?_
  cases reading with
  | true => exact act.step.grows
  | false => exact (Act.acts act).toReading.steps.grows

/-- Both parts of a quiet stretch are quiet. -/
theorem Quiet.split {a b c : Compiler} (h : Quiet a c) (hab : Acts true a b)
    (hbc : Acts true b c) : Quiet a b ∧ Quiet b c :=
  ⟨h.left hab.grows hbc.grows, h.right hab.grows hbc.grows⟩

/-! ## What cannot be quiet -/

theorem not_quiet_reportAt (c : Compiler) (token : Token) (problem : Problem) :
    ¬ Quiet c (c.reportAt token problem) := by
  rintro ⟨calm, same⟩
  have more := congrArg Array.size (errors_reportAt c token problem calm)
  rw [Array.size_push] at more
  omega

theorem not_quiet_report (c : Compiler) (problem : Problem) : ¬ Quiet c (c.report problem) :=
  not_quiet_reportAt _ _ _

/-- A token asked for in quiet was there. -/
theorem check_of_quiet_consume {c : Compiler} {kind : TokenKind} {problem : Problem}
    (h : Quiet c (c.consume kind problem)) : c.check kind = true := by
  by_contra missing
  simp only [consume, missing] at h
  exact not_quiet_reportAt _ _ _ h

/-! ## First errors -/

/-- No error token is left to be read. -/
def Clean (c : Compiler) : Prop := ∀ t ∈ c.unread, t.kind ≠ .error

/-- The first error reported between two states is not one of syntax. -/
def Static (c c' : Compiler) : Prop :=
  c.panicking = false → c.Clean → ∀ e, c'.errors[c.errors.size]? = some e →
    e.problem.isStatic = true

theorem unread_fetch (tokens : List Token) (c : Compiler) :
    ∀ t ∈ (c.fetch tokens).unread, t ∈ tokens := by
  induction tokens generalizing c with
  | nil => exact fun _ => id
  | cons token tokens ih =>
      intro t mem
      unfold fetch at mem
      split at mem
      · exact List.mem_cons_of_mem _ (ih _ t mem)
      · exact List.mem_cons_of_mem _ mem

theorem Step.clean {reading : Bool} {c c' : Compiler} (h : Step reading c c') (clean : c.Clean) :
    c'.Clean := by
  cases h with
  | read => exact fun t mem => clean t (unread_fetch _ _ t mem)
  | report => rw [Clean, reportAt_unread]; exact clean
  | giveUp | recover | intern | constant | work | beginRoutine => exact clean
  | endRoutine => rw [Clean, (endRoutine_frame c).2.2.1]; exact clean

theorem Acts.clean {reading : Bool} {c c' : Compiler} (h : Acts reading c c') :
    c.Clean → c'.Clean := h.preserve fun act => act.step.clean

/-- Without error tokens reading reports nothing. -/
theorem errors_advance {c : Compiler} (clean : c.Clean) : c.advance.errors = c.errors := by
  unfold advance
  cases unread : c.unread with
  | nil => rfl
  | cons token rest =>
      have fine := clean token (by rw [unread]; exact List.mem_cons_self ..)
      unfold fetch
      rw [if_neg fine]

theorem Static.silent {c c' : Compiler} (errors : c.Clean → c'.errors = c.errors) :
    Static c c' := by
  intro _ clean e found
  rw [errors clean, Array.getElem?_eq_none (Nat.le_refl _)] at found
  cases found

theorem static_advance (c : Compiler) : Static c c.advance := .silent errors_advance

theorem static_reportAt (c : Compiler) (token : Token) {problem : Problem}
    (static : problem.isStatic = true) : Static c (c.reportAt token problem) := by
  intro calm _ e found
  rw [errors_reportAt c token problem calm, Array.getElem?_push_size] at found
  cases found
  exact static

/-- The first error of two stretches is that of the second if the first one was quiet. -/
theorem Static.trans {a b c : Compiler} (hab : Acts true a b) (hbc : Acts true b c)
    (first : Static a b) (second : Quiet a b → Static b c) : Static a c := by
  intro calm clean e found
  rcases Nat.lt_or_eq_of_le hab.grows.errors with more | same
  · rw [hbc.grows.kept _ more] at found
    exact first calm clean e found
  · rw [same] at found
    exact second ⟨calm, same.symm⟩ (hab.grows.calm calm same.symm) (hab.clean clean) e found

/-- Where nothing is read there are no errors of syntax. -/
theorem Acts.static {c c' : Compiler} (h : Acts false c c') : Static c c' := by
  induction h with
  | refl => exact .silent fun _ => rfl
  | @tail b c' before last ih =>
      refine ih.trans (Acts.toReading before) (Acts.toReading last.acts) fun _ => ?_
      cases last with
      | report _ _ static => exact static_reportAt _ _ static
      | intern | constant | work | beginRoutine => exact .silent fun _ => rfl
      | endRoutine => exact .silent fun _ => (endRoutine_frame b).2.2.2.1

/-- What does not read may follow. -/
theorem Static.still {a b c : Compiler} (first : Static a b) (hab : Acts true a b)
    (hbc : Acts false b c) : Static a c := first.trans hab hbc.toReading fun _ => hbc.static

theorem static_consume {c : Compiler} {kind : TokenKind} (there : c.check kind = true)
    (problem : Problem) : Static c (c.consume kind problem) := by
  rw [consume_of_check there]
  exact static_advance c

end Compiler
end StackScript
