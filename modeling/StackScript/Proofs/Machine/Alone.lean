import StackScript.Proofs.Code.Moved
import StackScript.Proofs.Code.Sequence
import StackScript.Proofs.Machine.Guarded

/-!
# A script on a machine with older functions

The functions that a script declares are made before the script, and so are all that a machine
holds when it is run.  While instructions of the script are executed no call waits for it, and at
the end of its body nothing but the script itself is on the stack.
-/

namespace StackScript

/-! ## Older routines -/

/-- A routine is made after those among its constants. -/
theorem Part.Fine.id_lt {layout : Layout} {p : Part} (h : p.Fine layout) {v : Value}
    (mem : v ∈ (p.routine layout).chunk.constants) {r : Routine} (same : v.datum = .routine r) :
    r.id < (p.routine layout).id := by
  have dated : p.pool.Dated := by
    intro w old
    rw [h.fresh] at old
    exact absurd old (Array.not_mem_empty w)
  exact p.body.dated_code layout p.place dated v mem r same

/-- Parts of accepted sources whose routines are among the first so many. -/
def Library.before (count : Nat) : Library where
  holds layout p := p.Written layout ∧ (p.routine layout).id < count
  fine h := Library.written.fine h.1
  closed h v mem r same := by
    obtain ⟨written, before⟩ := h
    obtain ⟨other, q, held, rfl⟩ := Library.written.closed written v mem r same
    have older := (Library.written.fine written).id_lt mem same
    exact ⟨other, q, ⟨held, older.trans before⟩, rfl⟩

theorem Routine.OneOf.id_lt {count : Nat} {r : Routine} (h : r.OneOf (Library.before count).holds) :
    r.id < count := by
  obtain ⟨layout, p, held, rfl⟩ := h
  exact held.2

/-- A routine differs from itself in no identities that stay the same. -/
theorem Routine.OneOf.twin {count : Nat} {r : Routine} (h : r.OneOf (Library.before count).holds)
    {ids : Nat → Nat → Prop} (same : ∀ i < count, ids i i) : r.Twin ids r :=
  .refl fun _ within => same _ (((Library.before count).within h within).id_lt)

theorem Value.Trusted.imp {lib more : Library} {v : Value} (h : v.Trusted lib)
    (le : ∀ layout p, lib.holds layout p → more.holds layout p) : v.Trusted more := by
  intro r same
  obtain ⟨layout, p, held, rfl⟩ := h r same
  exact ⟨layout, p, le _ _ held, rfl⟩

theorem Globals.Trusted.imp {lib more : Library} {globals : Globals} (h : globals.Trusted lib)
    (le : ∀ layout p, lib.holds layout p → more.holds layout p) : globals.Trusted more :=
  fun name g there => (h name g there).imp le

theorem Globals.Trusted.written {count : Nat} {globals : Globals}
    (h : globals.Trusted (.before count)) : globals.Trusted .written := h.imp fun _ _ held => held.1

theorem Globals.Trusted.later {count more : Nat} {globals : Globals} (h : globals.Trusted (.before count))
    (le : count ≤ more) : globals.Trusted (.before more) :=
  h.imp fun _ _ held => ⟨held.1, Nat.lt_of_lt_of_le held.2 le⟩

/-- What a script can get hold of is older. -/
theorem Part.Written.trusted_constants {layout : Layout} {p : Part} (h : p.Written layout) :
    ∀ v ∈ (p.routine layout).chunk.constants, v.Trusted (.before (p.routine layout).id) := by
  intro v mem r same
  obtain ⟨other, q, held, rfl⟩ := Library.written.closed h v mem r same
  exact ⟨other, q, ⟨held, (Library.written.fine h).id_lt mem same⟩, rfl⟩

namespace Machine

/-! ## The outermost call -/

/-- What the outermost call executes. -/
def Scene.origin (s : Scene) : Option (Layout × Part) :=
  ((s.running :: s.waiting).map fun a => (a.layout, a.part)).getLast?

theorem Scene.Plays.origin_eq {lib : Library} {natives : Array NativeFunction} {first s : Scene}
    {past : List Scene} (h : first.Plays lib natives past s) : s.origin = first.origin := by
  induction h with
  | begin => rfl
  | @step earlier s s' _ proceeds ih =>
      rw [← ih]
      cases proceeds with
      | works | hosts | enters => rfl
      | leaves _ _ _ _ waits =>
          rw [Scene.origin, Scene.origin, waits, List.map_cons, List.map_cons, List.map_cons,
            List.getLast?_cons_cons]

/-- While the script is executed no call waits. -/
theorem Scene.Guarded.outermost {script : Routine} {s : Scene}
    (h : s.Guarded (.before script.id) script) (own : s.running.frame.routine = script) :
    s.waiting = [] := by
  obtain ⟨called, same, functions⟩ := h.routines
  rw [Scene.routines, List.map_cons, own] at same
  cases called with
  | nil => exact List.map_eq_nil_iff.mp (List.cons.inj same).2
  | cons r called =>
      have older := (functions r (List.mem_cons_self ..)).id_lt
      rw [← (List.cons.inj same).1] at older
      exact absurd older (Nat.lt_irrefl _)

section

variable {layout : Layout} {p : Part} {m₀ m : Machine} {frame : Frame} {count : Nat}
  (written : p.Written layout) (script : p.arity = 0)
  (globals : m₀.globals.Trusted (.before (p.routine layout).id))
  (handsBack : ∀ f ∈ m₀.natives, f.HandsBack)
  (reached : Reaches (m₀.begin (p.routine layout)).1 (m₀.begin (p.routine layout)).2 count frame m)

include written script globals handsBack reached

/-- The states of a run of a script, where everything else is older. -/
theorem guarded_of_reaches : ∃ s : Scene, s.Sound .written ∧ s.Shows frame m ∧
    s.Guarded (.before (p.routine layout).id) (p.routine layout) ∧ s.origin = some (layout, p) := by
  have sound : (Scene.opening layout p m₀.world).Sound .written :=
    Scene.opening_sound written script globals.written
  have trustworthy : Trustworthy .written m₀.natives := trustworthy_of_handsBack handsBack
  obtain ⟨past, s, plays, -, shows, -⟩ :=
    reached.plays sound (Scene.opening_shows layout p m₀) trustworthy
  exact ⟨s, plays.sound sound trustworthy, shows,
    plays.guarded sound trustworthy handsBack written.trusted_constants
      (Scene.opening_guarded layout p globals), plays.origin_eq⟩

end

end Machine
end StackScript
