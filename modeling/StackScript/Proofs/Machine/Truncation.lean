import StackScript.Proofs.Machine.Raised
import StackScript.Proofs.Machine.Silent

/-!
# Output that is cut short

A sink that takes only so many bytes cuts the output and the run at the same place.  Output
`Heeds` its sink if it stops at the first write that fails; all functions of the standard
modules do.  As long as everything fits, a step into a limited sink is the step into an open
one, and where it does not fit the step faults, with the sink filled to its limit.  Until
then the two runs go through the same calls and machines.
-/

namespace StackScript

/-- All bytes, and as many as there are. -/
theorem extract_all {bytes : ByteArray} {most : Nat} (enough : bytes.size ≤ most) :
    bytes.extract 0 most = bytes := by
  apply ByteArray.ext
  rw [ByteArray.data_extract]
  exact Array.extract_eq_self_of_le enough

namespace Sink

/-- The sink with a limit on the bytes that it takes in all. -/
def limited (most : Nat) (failure : String) (s : Sink) : Sink :=
  { s with limit := some (most, failure) }

variable {s s' : Sink} {most : Nat}

theorem Precedes.size (h : s.Precedes s') : s.written.size ≤ s'.written.size := by
  obtain ⟨more, same⟩ := h
  rw [same, ByteArray.size_append]
  omega

/-- What is written behind a place does not change what is before it. -/
theorem Precedes.extract (h : s.Precedes s') (most : Nat) (enough : most ≤ s.written.size) :
    s'.written.extract 0 most = s.written.extract 0 most := by
  obtain ⟨more, same⟩ := h
  rw [same, ByteArray.extract_append, Nat.sub_eq_zero_of_le enough, Nat.zero_sub,
    ByteArray.extract_same, ByteArray.append_empty]

end Sink

/-! ## Output that heeds its sink -/

namespace Output

variable {α β : Type}

/-- The result, with a limit on the sink. -/
def limitedResult (most : Nat) (failure : String) :
    EStateM.Result String Sink α → EStateM.Result String Sink α
  | .ok a sink => .ok a (sink.limited most failure)
  | .error message sink => .error message (sink.limited most failure)

/-- What comes of output into a limited sink, given what comes of it into an open one. -/
inductive Cut (most : Nat) (failure : String) (result : EStateM.Result String Sink α) :
    EStateM.Result String Sink α → Prop where
  | fits (room : (sinkOf result).written.size ≤ most) :
      Cut most failure result (limitedResult most failure result)
  | overflows {sink : Sink} (excess : most < (sinkOf result).written.size)
      (filled : sink.written = (sinkOf result).written.extract 0 most) :
      Cut most failure result (.error failure sink)

/-- Output that ends at the first write that fails. -/
structure Heeds (x : Output α) : Prop where
  adds : x.Adds
  stays : ∀ s : Sink, s.limit = none → (sinkOf (x s)).limit = none
  cut : ∀ {s : Sink} {most : Nat} (failure : String), s.limit = none → s.written.size ≤ most →
    Cut most failure (x s) (x (s.limited most failure))

theorem heeds_pure (a : α) : Heeds (pure a) where
  adds := adds_pure a
  stays _ opened := opened
  cut _ _ room := .fits room

theorem heeds_throw (message : String) : Heeds (throw message : Output α) where
  adds s := .refl s
  stays _ opened := opened
  cut _ _ room := .fits room

theorem heeds_write (text : String) : (Sink.write text).Heeds where
  adds := adds_write text
  stays := by
    rintro ⟨written, _, flushFailure⟩ rfl
    rfl
  cut := by
    rintro ⟨written, _, flushFailure⟩ most failure rfl room
    have room : written.size ≤ most := room
    simp only [Sink.write, Sink.limited]
    split
    · rename_i fits
      refine .fits ?_
      simp only [sinkOf, ByteArray.size_append]
      omega
    · rename_i short
      refine .overflows ?_ ?_
      · simp only [sinkOf, ByteArray.size_append]
        omega
      · simp only [sinkOf, ByteArray.extract_append, extract_all room, Nat.zero_sub]

theorem Heeds.bind {x : Output α} {f : α → Output β} (first : x.Heeds)
    (then_ : ∀ a, (f a).Heeds) : (x >>= f).Heeds where
  adds := first.adds.bind fun a => (then_ a).adds
  stays := by
    intro s opened
    have here := first.stays s opened
    simp only [Bind.bind, EStateM.bind]
    cases ran : x s with
    | error message s' =>
        rw [ran] at here
        exact here
    | ok a s' =>
        rw [ran] at here
        exact (then_ a).stays s' here
  cut := by
    intro s most failure opened room
    have here := first.stays s opened
    have cut := first.cut failure opened room
    simp only [Bind.bind, EStateM.bind]
    generalize x (s.limited most failure) = result' at cut
    cases ran : x s with
    | error message s' =>
        rw [ran] at cut
        cases cut with
        | fits room => exact .fits room
        | overflows excess filled => exact .overflows excess filled
    | ok a s' =>
        rw [ran] at here cut
        cases cut with
        | fits room => exact (then_ a).cut failure here room
        | overflows excess filled =>
            -- What comes behind is lost.
            have more : s'.Precedes (sinkOf (f a s')) := (then_ a).adds s'
            refine .overflows (Nat.lt_of_lt_of_le excess more.size) ?_
            rw [filled]
            exact (more.extract most (Nat.le_of_lt excess)).symm

theorem heeds_forM (values : List α) {f : α → Output PUnit} (h : ∀ a, (f a).Heeds) :
    (values.forM f).Heeds := by
  induction values with
  | nil => exact heeds_pure _
  | cons a rest ih => exact (h a).bind fun _ => ih

end Output

/-- A host function that ends at the first write that fails. -/
def NativeFunction.Heeds (f : NativeFunction) : Prop :=
  ∀ context arguments, Output.Heeds (f context arguments)

/-- A host function of one of the standard modules. -/
def NativeFunction.Standard (f : NativeFunction) : Prop :=
  ∃ found ∈ Library.modules, ∃ symbol ∈ found.symbols, symbol.function = f

open Output in
/-- The functions of the standard modules end at the first write that fails. -/
theorem NativeFunction.Standard.heeds {f : NativeFunction} (h : f.Standard) : f.Heeds := by
  have printing : NativeFunction.Heeds Library.println := by
    rintro context ⟨arguments⟩
    simp only [Library.println, Array.forM_eq_forM, List.forM_toArray]
    exact (heeds_forM _ fun _ => heeds_write _).bind fun _ => (heeds_write _).bind fun _ =>
      heeds_pure _
  have listing : NativeFunction.Heeds Library.printGlobals := fun _ _ =>
    (heeds_forM _ fun _ => heeds_write _).bind fun _ => heeds_pure _
  have dumping : NativeFunction.Heeds Library.printStack := fun _ _ =>
    (heeds_forM _ fun _ => heeds_write _).bind fun _ => heeds_pure _
  obtain ⟨found, mem, symbol, there, rfl⟩ := h
  exact Library.forall_symbols printing listing dumping found mem symbol there

namespace Machine

/-- The machine with a limit on the bytes that its sink takes in all. -/
def limited (most : Nat) (failure : String) (m : Machine) : Machine :=
  m.into (m.sink.limited most failure)

/-- The result, with a limit on the sink. -/
def limitedResult {α : Type} (most : Nat) (failure : String) :
    EStateM.Result Fault Machine α → EStateM.Result Fault Machine α
  | .ok a m => .ok a (m.limited most failure)
  | .error fault m => .error fault (m.limited most failure)

/-- What comes of a computation into a limited sink, given what comes of it into an open one,
where `meaning` is what a failure to write is reported as. -/
inductive Cut {α : Type} (most : Nat) (failure : String) (meaning : Option (String → Fault))
    (result : EStateM.Result Fault Machine α) : EStateM.Result Fault Machine α → Prop where
  | fits (room : (after result).sink.written.size ≤ most) :
      Cut most failure meaning result (limitedResult most failure result)
  | overflows {fault : String → Fault} {m' : Machine} (reported : meaning = some fault)
      (excess : most < (after result).sink.written.size)
      (filled : m'.sink.written = (after result).sink.written.extract 0 most) :
      Cut most failure meaning result (.error (fault failure) m')

/-- From a machine with an open sink, a computation that ends at the first write that
fails. -/
structure Heeds {α : Type} (meaning : Option (String → Fault)) (m : Machine) (x : Exec α) :
    Prop where
  stays : (after (x m)).sink.limit = none
  cut : ∀ {most : Nat} (failure : String), m.sink.written.size ≤ most →
    Cut most failure meaning (x m) (x (m.limited most failure))

section

variable {α β : Type} {meaning : Option (String → Fault)} {m : Machine}

theorem limitedResult_eq {x : Exec α} (h : (after (x m)).sink = m.sink) (most : Nat)
    (failure : String) :
    intoResult (m.sink.limited most failure) (x m) = limitedResult most failure (x m) := by
  rw [← h]
  cases x m <;> rfl

/-- What does not write has nothing to heed. -/
theorem heeds_of_into {x : Exec α} (opened : m.sink.limit = none)
    (h : ∀ sink, x (m.into sink) = intoResult sink (x m)) : Heeds meaning m x := by
  have kept : (after (x m)).sink = m.sink := by
    have same := h m.sink
    rw [into_sink] at same
    rw [same, after_intoResult, sink_into]
  constructor
  · rw [kept]
    exact opened
  · intro most failure room
    rw [limited, h, limitedResult_eq kept]
    exact .fits (by rwa [kept])

theorem Heeds.then {x : Exec α} {f : α → Exec β} (first : Heeds meaning m x)
    (then_ : ∀ a, Silent (f a)) : Heeds meaning m (x >>= f) := by
  have next (a : α) (m' : Machine) := (then_ a).sink m'
  -- What follows writes nothing, so the limit can only have been met in the first part.
  constructor
  · have here := first.stays
    simp only [Bind.bind, EStateM.bind]
    cases ran : x m with
    | error fault m' =>
        rw [ran] at here
        exact here
    | ok a m' =>
        rw [ran] at here
        show (after (f a m')).sink.limit = none
        rw [next a m']
        exact here
  · intro most failure room
    have cut := first.cut failure room
    simp only [Bind.bind, EStateM.bind]
    generalize x (m.limited most failure) = result' at cut
    cases ran : x m with
    | error fault m' =>
        rw [ran] at cut
        cases cut with
        | fits room => exact .fits room
        | overflows reported excess filled => exact .overflows reported excess filled
    | ok a m' =>
        rw [ran] at cut
        cases cut with
        | fits room =>
            show Cut most failure meaning (f a m') (f a (m'.limited most failure))
            rw [limited, then_ a, limitedResult_eq (next a m')]
            exact .fits (by rwa [next a m'])
        | overflows reported excess filled =>
            refine .overflows reported ?_ ?_
            · show most < (after (f a m')).sink.written.size
              rw [next a m']
              exact excess
            · show _ = (after (f a m')).sink.written.extract 0 most
              rw [next a m']
              exact filled

theorem Silent.bindHeeds {x : Exec α} {f : α → Exec β} (first : Silent x)
    (opened : m.sink.limit = none)
    (then_ : ∀ a (m' : Machine), m'.sink.limit = none → Heeds meaning m' (f a)) :
    Heeds meaning m (x >>= f) := by
  have kept := first.sink m
  constructor
  · simp only [Bind.bind, EStateM.bind]
    cases ran : x m with
    | error fault m' =>
        rw [ran] at kept
        exact (congrArg Sink.limit kept).trans opened
    | ok a m' =>
        rw [ran] at kept
        exact (then_ a m' ((congrArg Sink.limit kept).trans opened)).stays
  · intro most failure room
    have same : x (m.limited most failure) = limitedResult most failure (x m) :=
      (first _ m).trans (limitedResult_eq kept most failure)
    simp only [Bind.bind, EStateM.bind, same]
    cases ran : x m with
    | error fault m' =>
        rw [ran] at kept
        exact .fits (show m'.sink.written.size ≤ most by rw [show m'.sink = m.sink from kept]; exact room)
    | ok a m' =>
        rw [ran] at kept
        have here : m'.sink = m.sink := kept
        exact (then_ a m' (here ▸ opened)).cut failure (by rw [here]; exact room)

/-- Output heeds the sink of the machine as it heeds any other. -/
theorem heeds_withSink {output : Machine → Output α} {fault : String → Fault}
    (same : ∀ sink, output (m.into sink) = output m) (heeds : (output m).Heeds)
    (opened : m.sink.limit = none) : Heeds (some fault) m fun m => withSink (output m) fault m := by
  obtain ⟨config, loader, heap, globals, natives, sink, log, stack, callers⟩ := m
  have stays := heeds.stays sink opened
  constructor
  · simp only [withSink]
    cases ran : output ⟨config, loader, heap, globals, natives, sink, log, stack, callers⟩ sink with
    | ok a sink' =>
        rw [ran] at stays
        exact stays
    | error message sink' =>
        rw [ran] at stays
        exact stays
  -- The function sees the same machine, and only its sink has the limit.
  · intro most failure room
    have cut := heeds.cut failure opened room
    rw [limited, same]
    simp only [withSink, into]
    generalize output ⟨config, loader, heap, globals, natives, sink, log, stack, callers⟩
      (sink.limited most failure) = result' at cut
    cases ran : output ⟨config, loader, heap, globals, natives, sink, log, stack, callers⟩ sink with
    | ok a sink' =>
        rw [ran] at cut
        cases cut with
        | fits room => exact .fits room
        | overflows excess filled => exact .overflows rfl excess filled
    | error message sink' =>
        rw [ran] at cut
        cases cut with
        | fits room => exact .fits room
        | overflows excess filled => exact .overflows rfl excess filled

end

/-! ## Steps -/

/-- The functions of the standard modules are all that a machine knows of its host. -/
def Standard (m : Machine) : Prop := ∀ f ∈ m.natives, f.Standard

/-- Nothing limits the output of a machine, and its host functions are standard. -/
structure Unhindered (m : Machine) : Prop where
  standard : m.Standard
  opened : m.sink.limit = none

theorem Unhindered.prints {m : Machine} (h : m.Unhindered) : m.Prints :=
  fun f mem context arguments => ((h.standard f mem).heeds context arguments).adds

section

variable {m : Machine}

theorem Heeds.congr {α : Type} {meaning : Option (String → Fault)} {x y : Exec α}
    (h : Heeds meaning m x) (same : ∀ sink, y (m.into sink) = x (m.into sink)) :
    Heeds meaning m y := by
  have here : y m = x m := same m.sink
  constructor
  · rw [here]
    exact h.stays
  · intro most failure room
    rw [here, limited, same]
    exact h.cut failure room

theorem heeds_applyNative (h : m.Unhindered) (n : Native) (callee : Nat) :
    Heeds (some (.native n.name.chars)) m (applyNative n callee) := by
  refine heeds_withSink (fun _ => rfl) ?_ h.opened
  cases found : m.natives[n.id]? with
  | none => exact Output.heeds_throw _
  | some f => exact (h.standard f (Array.mem_of_getElem? found)).heeds _ _

theorem heeds_call (h : m.Unhindered) (frame : Frame) (count : Nat) :
    Heeds ((m.calledNative? count).map fun n => .native n.name.chars) m (call frame count) := by
  cases host : m.calledNative? count with
  | none => exact heeds_of_into h.opened (call_into host)
  | some n =>
      unfold calledNative? at host
      split at host
      · cases host
      rename_i enough
      split at host
      case h_2 => cases host
      rename_i found
      cases host
      obtain ⟨v, there, kind⟩ := Option.map_eq_some_iff.mp found
      have calls (sink : Sink) : call frame count (m.into sink) =
          calling frame (m.stack.size - (count + 1)) count (.native n) (m.into sink) := by
        rw [call_eq (m.into sink) frame there enough, kind]
        rfl
      exact ((heeds_applyNative h n _).then fun _ => (silent_truncate _).bind fun _ =>
        (silent_push _).bind fun _ => silent_pure _).congr calls

/-- A step ends at the first write that fails. -/
theorem heeds_step (h : m.Unhindered) (frame : Frame) :
    Heeds (m.outputFault? frame) m (step frame) := by
  cases writes : m.outputFault? frame with
  | none => exact heeds_of_into h.opened (step_into writes)
  | some meaning =>
      unfold outputFault? at writes
      split at writes
      · rename_i operand next code
        cases writes
        rw [step_ok code]
        refine silent_pop.bindHeeds h.opened fun v m' opened => ?_
        exact (heeds_withSink (fun _ => rfl) (Output.heeds_write _) opened).then fun _ =>
          silent_pure _
      · rename_i count next code
        rw [step_ok code, ← writes]
        exact heeds_call h _ count
      · cases writes

theorem Unhindered.traced (h : m.Unhindered) (frame : Frame) : (m.traced frame).Unhindered := by
  unfold Machine.traced
  split
  · exact ⟨h.standard, h.opened⟩
  · exact h

/-- A step hinders nothing. -/
theorem Unhindered.step (h : m.Unhindered) (frame : Frame) :
    (after (Machine.step frame m)).Unhindered where
  standard f mem := h.standard f (((lockstep_step frame).proceeds h.prints).natives ▸ mem)
  opened := (heeds_step h frame).stays

theorem sink_traced (m : Machine) (frame : Frame) : (m.traced frame).sink = m.sink := by
  unfold traced
  split <;> rfl

/-- Tracing takes no notice of the sink. -/
theorem traced_limited (most : Nat) (failure : String) (m : Machine) (frame : Frame) :
    (m.limited most failure).traced frame = (m.traced frame).limited most failure := by
  have same : (m.limited most failure).config = m.config := rfl
  unfold traced
  rw [same]
  split <;> rfl

/-- The step into a limited sink, with its instruction traced. -/
theorem cut_step (h : m.Unhindered) (frame : Frame) {most : Nat} (failure : String)
    (room : m.sink.written.size ≤ most) :
    Cut most failure (m.outputFault? frame) (step frame (m.traced frame))
      (step frame ((m.limited most failure).traced frame)) := by
  rw [traced_limited, ← outputFault?_traced m frame frame]
  exact (heeds_step (h.traced frame) frame).cut failure (by rwa [sink_traced])

end

/-! ## Runs -/

section

variable {first frame : Frame} {start m : Machine} {count most : Nat} {failure : String}

theorem Reaches.unhindered (h : start.Unhindered) (reached : Reaches first start count frame m) :
    m.Unhindered := by
  induction reached with
  | refl => exact h
  | @step count frame next m m' before ran ih =>
      have kept := (ih.traced frame).step frame
      rwa [ran] at kept

/-- What a step has written is still there after it. -/
theorem precedes_step (h : m.Unhindered) (frame : Frame) :
    m.sink.Precedes (after (step frame (m.traced frame))).sink := by
  have more := ((lockstep_step frame).proceeds (h.traced frame).prints).sink
  rwa [sink_traced] at more

/-- As long as everything fits, the run into a limited sink goes through the same calls and
machines. -/
theorem Reaches.limited (h : start.Unhindered) (reached : Reaches first start count frame m)
    (room : m.sink.written.size ≤ most) (failure : String) :
    Reaches first (start.limited most failure) count frame (m.limited most failure) := by
  induction reached with
  | refl => exact .refl
  | @step count frame next m m' before ran ih =>
      have free := before.unhindered h
      have grown := (precedes_step free frame).size
      rw [ran] at grown
      have less : m.sink.written.size ≤ most := Nat.le_trans grown room
      have cut := cut_step free frame failure less
      rw [ran] at cut
      refine .step (ih less) ?_
      generalize Machine.step frame ((m.limited most failure).traced frame) = result at cut
      cases cut with
      | fits => rfl
      | overflows _ excess => exact absurd room (Nat.not_le_of_lt excess)

/-- The instruction after `count` others is the first one whose output does not fit. -/
structure Exceeds (first : Frame) (start : Machine) (most count : Nat) (frame : Frame)
    (before : Machine) : Prop where
  reached : Reaches first start count frame before
  room : before.sink.written.size ≤ most
  excess : most < (after (step frame (before.traced frame))).sink.written.size

/-- Before more is written than fits, some instruction writes the first byte too many. -/
theorem Reaches.exceeds (reached : Reaches first start count frame m)
    (room : start.sink.written.size ≤ most) (excess : most < m.sink.written.size) :
    ∃ earlier < count, ∃ frame before, Exceeds first start most earlier frame before := by
  induction reached with
  | refl => exact absurd room (Nat.not_le_of_lt excess)
  | @step count frame next m m' before ran ih =>
      by_cases fitted : m.sink.written.size ≤ most
      · refine ⟨count, Nat.lt_succ_self _, frame, m, before, fitted, ?_⟩
        rw [ran]
        exact excess
      · obtain ⟨earlier, less, found⟩ := ih (Nat.lt_of_not_le fitted)
        exact ⟨earlier, Nat.lt_succ_of_lt less, found⟩

/-- An execution that writes more than fits contains such an instruction. -/
theorem exceeds_of_execute {steps : Nat} (room : start.sink.written.size ≤ most)
    (excess : most < (execute steps first start).2.sink.written.size) :
    ∃ count < steps, ∃ frame before, Exceeds first start most count frame before := by
  have halting := halts first start steps
  generalize execute steps first start = final at halting excess
  cases halting with
  | @finished count frame m m' reached below ran =>
      by_cases fitted : m.sink.written.size ≤ most
      · exact ⟨count, below, frame, m, reached, fitted, by rw [ran]; exact excess⟩
      · obtain ⟨earlier, less, found⟩ := reached.exceeds room (Nat.lt_of_not_le fitted)
        exact ⟨earlier, by omega, found⟩
  | @faulted count frame m m' fault reached below ran =>
      by_cases fitted : m.sink.written.size ≤ most
      · exact ⟨count, below, frame, m, reached, fitted, by rw [ran]; exact excess⟩
      · obtain ⟨earlier, less, found⟩ := reached.exceeds room (Nat.lt_of_not_le fitted)
        exact ⟨earlier, by omega, found⟩
  | unfinished reached => exact reached.exceeds room excess

/-- What the instruction writes is not lost as long as the sink is open. -/
theorem Exceeds.precedes {before : Machine} {steps : Nat} (h : start.Unhindered)
    (exceeds : Exceeds first start most count frame before) (below : count < steps) :
    (after (step frame (before.traced frame))).sink.Precedes (execute steps first start).2.sink := by
  have free := ((exceeds.reached.unhindered h).traced frame).step frame
  obtain ⟨rest, rfl⟩ : ∃ rest, steps = count + (rest + 1) := ⟨steps - count - 1, by omega⟩
  rw [exceeds.reached.execute]
  cases ran : step frame (before.traced frame) with
  | error fault m' =>
      rw [execute_error ran]
      exact .refl _
  | ok flow m' =>
      rw [ran] at free
      cases flow with
      | finished =>
          rw [execute_finished ran]
          exact .refl _
      | running next =>
          rw [execute_running ran]
          exact (proceeding_execute rest next free.prints).sink

/-- Executing into a limited sink ends at the instruction whose output does not fit. -/
theorem Exceeds.ends {before : Machine} (h : start.Unhindered)
    (exceeds : Exceeds first start most count frame before) (failure : String) :
    ∃ meaning final, before.outputFault? frame = some meaning ∧
      final.sink.written =
        (after (step frame (before.traced frame))).sink.written.extract 0 most ∧
      ∀ steps, count < steps → execute steps first (start.limited most failure) =
        (.faulted frame.atNext (meaning failure), final) := by
  obtain ⟨reached, room, excess⟩ := exceeds
  have cut := cut_step (reached.unhindered h) frame failure room
  generalize ran : step frame ((before.limited most failure).traced frame) = result at cut
  cases cut with
  | fits fitted => exact absurd fitted (Nat.not_le_of_lt excess)
  | @overflows meaning final reported _ filled =>
      refine ⟨meaning, final, reported, filled, fun steps below => ?_⟩
      obtain ⟨rest, rfl⟩ : ∃ rest, steps = count + (rest + 1) := ⟨steps - count - 1, by omega⟩
      rw [(reached.limited h room failure).execute]
      exact execute_error ran rest

/-- An execution whose output fits is the same into a limited sink. -/
theorem execute_limited (steps : Nat) (frame : Frame) (h : m.Unhindered)
    (fits : (execute steps frame m).2.sink.written.size ≤ most) (failure : String) :
    execute steps frame (m.limited most failure) =
      ((execute steps frame m).1, (execute steps frame m).2.limited most failure) := by
  -- Output only grows, so a step whose output is too long contradicts the length of the whole.
  induction steps generalizing frame m with
  | zero => rfl
  | succ steps ih =>
      have whole := (proceeding_execute (steps + 1) frame h.prints).sink.size
      have cut := cut_step h frame failure (Nat.le_trans whole fits)
      generalize ran' : step frame ((m.limited most failure).traced frame) = result at cut
      cases ran : step frame (m.traced frame) with
      | error fault m' =>
          rw [execute_error ran] at fits ⊢
          rw [ran] at cut
          cases cut with
          | fits => exact execute_error ran' steps
          | overflows _ excess => exact absurd fits (Nat.not_le_of_lt excess)
      | ok flow m' =>
          rw [ran] at cut
          cases flow with
          | finished =>
              rw [execute_finished ran] at fits ⊢
              cases cut with
              | fits => exact execute_finished ran' steps
              | overflows _ excess => exact absurd fits (Nat.not_le_of_lt excess)
          | running next =>
              rw [execute_running ran] at fits ⊢
              have free : m'.Unhindered := by
                have kept := (h.traced frame).step frame
                rwa [ran] at kept
              cases cut with
              | fits =>
                  rw [execute_running ran']
                  exact ih next free fits
              | overflows _ excess =>
                  have later := (proceeding_execute steps next free.prints).sink.size
                  exact absurd (Nat.le_trans later fits) (Nat.not_le_of_lt excess)

theorem flush_limited (most : Nat) (failure : String) (m : Machine) :
    flush (m.limited most failure) = limitedResult most failure (flush m) := by
  obtain ⟨config, loader, heap, globals, natives, ⟨written, limit, flushFailure⟩, log, stack,
    callers⟩ := m
  cases flushFailure <;> rfl

/-- How a run ends does not depend on the limit of the sink. -/
theorem conclude_limited (halt : Halt) (most : Nat) (failure : String) (m : Machine) :
    (m.limited most failure).conclude halt =
      ((m.conclude halt).1, (m.conclude halt).2.limited most failure) := by
  have fails (frame : Frame) (fault : Fault) : (m.limited most failure).fail frame fault =
      ((m.fail frame fault).1, (m.fail frame fault).2.limited most failure) := by
    simp only [fail, flushed_eq]
    rfl
  cases halt with
  | unfinished frame => rfl
  | faulted frame fault => exact fails frame fault
  | finished frame =>
      simp only [conclude, flush_limited]
      rcases flush_eq m with ran | ⟨refusal, ran⟩
      · rw [ran]
        rfl
      · rw [ran]
        exact fails frame (.output refusal)

end

/-- With a sink that takes only so many bytes, a run writes just these bytes of what it
writes otherwise.  If it writes no more, then it ends alike; else it ends at the instruction
whose output does not fit, with the fault by which this instruction reports that it could
not write. -/
theorem run_cut_short {m : Machine} (h : m.Unhindered) (script : Routine) (taken : Nat)
    (failure : String) (steps : Nat) :
    let most := m.sink.written.size + taken
    let whole := m.run steps script
    let cut (steps : Nat) := (m.limited most failure).run steps script
    ∃ bytes, whole.2.sink.written = m.sink.written ++ bytes ∧
      (cut steps).2.sink.written = m.sink.written ++ bytes.extract 0 taken ∧
      (bytes.size ≤ taken → cut steps = (whole.1, whole.2.limited most failure)) ∧
      (taken < bytes.size → ∃ count < steps, ∃ frame before meaning,
        Exceeds (m.begin script).1 (m.begin script).2 most count frame before ∧
          before.outputFault? frame = some meaning ∧
          ∃ error final, error.fault = meaning failure ∧ error.line = frame.atNext.line ∧
            ∀ steps, count < steps → cut steps = (.failed error, final)) := by
  intro most whole cut
  let first : Frame := .enter script 0
  let start : Machine := (m.begin script).2
  have free : start.Unhindered := ⟨h.standard, h.opened⟩
  have cutRun (steps : Nat) : cut steps =
      (execute steps first (start.limited most failure)).2.conclude
        (execute steps first (start.limited most failure)).1 := rfl
  have written : whole.2.sink = (execute steps first start).2.sink := sink_conclude ..
  have grows : m.sink.Precedes (execute steps first start).2.sink :=
    (proceeding_execute steps first free.prints).sink
  obtain ⟨bytes, same⟩ := grows
  have size : (execute steps first start).2.sink.written.size = m.sink.written.size + bytes.size := by
    rw [same, ByteArray.size_append]
  have kept : (m.sink.written ++ bytes).extract 0 most = m.sink.written ++ bytes.extract 0 taken := by
    rw [ByteArray.extract_append, extract_all (Nat.le_add_right _ _), Nat.zero_sub,
      Nat.add_sub_cancel_left]
  refine ⟨bytes, by rw [written, same], ?_⟩
  -- Either all of the output fits, and the limit is never met, or there is a first write past it.
  by_cases fits : bytes.size ≤ taken
  · have alike : cut steps = (whole.1, whole.2.limited most failure) := by
      rw [cutRun, execute_limited steps first free (by omega) failure]
      exact conclude_limited ..
    refine ⟨?_, fun _ => alike, fun excess => absurd fits (Nat.not_le_of_lt excess)⟩
    rw [alike]
    show whole.2.sink.written = _
    rw [written, same, extract_all fits]
  · have excess : most < (execute steps first start).2.sink.written.size := by omega
    have room : start.sink.written.size ≤ most := Nat.le_add_right _ _
    obtain ⟨count, below, frame, before, exceeds⟩ := exceeds_of_execute room excess
    obtain ⟨meaning, final, reported, filled, ends⟩ := exceeds.ends free failure
    have ended (steps : Nat) (below : count < steps) :
        cut steps = final.conclude (.faulted frame.atNext (meaning failure)) := by
      rw [cutRun, ends steps below]
    refine ⟨?_, fun small => absurd small fits, fun _ => ⟨count, below, frame, before, meaning,
      exceeds, reported, _, _, rfl, rfl, ended⟩⟩
    rw [ended steps below, sink_conclude, filled, ← kept, ← same]
    exact ((exceeds.precedes free below).extract most (Nat.le_of_lt exceeds.excess)).symm

/-- A machine that has imported standard modules, with an open sink. -/
theorem unhindered_importing (config : MachineConfig) (names : List String) :
    ((start config Library.load).importing names).Unhindered := by
  have imports := imports_importing (start config Library.load) names
  refine ⟨imports.functions_of_empty rfl (Library.forall_load fun found mem symbol there => ?_), by
    rw [imports.sink]
    rfl⟩
  exact ⟨found, mem, symbol, there, rfl⟩

/-- A script that prints null twice, into a sink that takes the first line and the beginning
of the second. -/
theorem run_cut_short_sample :
    let m : Machine := (start .standard Library.load).importing ["io", "dev"]
    let script : Routine := ⟨0, none, 0, ⟨#[Opcode.null.toByte, Opcode.print.toByte,
      Opcode.null.toByte, Opcode.print.toByte, Opcode.null.toByte, Opcode.return.toByte],
      #[], #[(0, 1)]⟩⟩
    let cut (steps : Nat) := (m.limited (m.sink.written.size + 7) "sink full").run steps script
    m.Unhindered ∧ (cut 6).2.sink.written = (m.run 6 script).2.sink.written.extract 0 7 ∧
      ∃ count < 6, ∃ frame before meaning, outputFault? frame before = some meaning ∧
        ∃ error final, error.fault = meaning "sink full" ∧
          ∀ steps, count < steps → cut steps = (.failed error, final) := by
  intro m script cut
  have free : m.Unhindered := unhindered_importing .standard ["io", "dev"]
  have ten : (m.run 6 script).2.sink.written.size = 10 := by decide +kernel
  obtain ⟨bytes, written, taken, -, short⟩ := run_cut_short free script 7 "sink full" 6
  have none : m.sink.written = ByteArray.empty := rfl
  rw [none, ByteArray.empty_append] at written taken
  obtain ⟨count, below, frame, before, meaning, -, reported, error, final, fault, -, ends⟩ :=
    short (by rw [← written, ten]; decide)
  exact ⟨free, taken.trans (by rw [written]), count, below, frame, before, meaning, reported,
    error, final, fault, ends⟩

end Machine
end StackScript
