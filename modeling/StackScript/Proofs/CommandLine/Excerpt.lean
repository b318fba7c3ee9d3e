import StackScript.CommandLine.Session

/-!
# The line shown under a fault

In the pretty format the report of a failed run shows a line of the input that was being
executed: the one with the number of the error's line.  A fault knows no more than that
number, so when it arises in a function that an earlier input defined, the line shown is
not the one at fault.
-/

namespace StackScript

/-- The line of a report that shows a line of a source. -/
def Pretty.excerpt (color : Bool) (source : LineTable) (line : Nat) : String :=
  renderLine color [painted .cyan (toString line), plain " ", painted .cyan "|",
    plain (" " ++ source.lineText line)]

/-- The report of a failed run shows the line of its error in the attached source. -/
theorem Pretty.render_runtimeError (color : Bool) (e : RuntimeError) (source : LineTable) :
    ∃ front back, render color ((Diagnostic.ofRuntimeError e).withSource source) =
      front ++ excerpt color source e.line ++ back := by
  obtain ⟨front, back, layout⟩ : ∃ front back,
      layout ((Diagnostic.ofRuntimeError e).withSource source) =
        front ++ [painted .cyan (toString e.line), plain " ", painted .cyan "|",
          plain (" " ++ source.lineText e.line)] :: back :=
    ⟨[_, _, _], _, rfl⟩
  refine ⟨String.join (front.map (renderLine color)), String.join (back.map (renderLine color)), ?_⟩
  simp only [render, layout, List.map_append, List.map_cons, String.join_append, String.join_cons,
    excerpt, String.append_assoc]

namespace CommandLine
namespace Session

/-- What saying something on the error stream leaves as it is. -/
structure SameBut (s s' : Session) : Prop where
  format : s'.format = s.format
  dump : s'.dump = s.dump
  color : s'.color = s.color
  /-- The log may have been moved to the error stream. -/
  machine : ∃ log, s'.machine = { s.machine with log }

theorem sameBut_sayLog (s : Session) : s.SameBut s.sayLog := by
  unfold sayLog
  rw [← Array.foldl_toList]
  generalize s.machine.log.records.toList = records
  suffices onward : ∀ t : Session, s.SameBut t →
      s.SameBut (records.foldl (fun s record => s.sayLine record.describe) t) from
    onward _ ⟨rfl, rfl, rfl, _, rfl⟩
  induction records with
  | nil => exact fun t same => same
  | cons record rest ih =>
      exact fun t same => ih _ ⟨same.format, same.dump, same.color, same.machine⟩

/-- A report in the pretty format. -/
theorem reportRuntimeError_shows {s : Session} (pretty : s.format = .pretty) (e : RuntimeError)
    (source : String) : ∃ front back, (s.reportRuntimeError e source).errors =
      front ++ Pretty.excerpt s.color (.ofString source) e.line ++ back := by
  obtain ⟨front, back, shown⟩ := Pretty.render_runtimeError s.color e (.ofString source)
  refine ⟨s.errors ++ front, back, ?_⟩
  simp only [reportRuntimeError, report, pretty, say, shown, String.append_assoc]

/-- Ending a run with an error shows a line of the given source. -/
theorem conclude_shows {source : String} {halt : Halt} {s s' : Session}
    (pretty : s.format = .pretty) (ran : s.conclude source halt = (some .software, s')) :
    ∃ e, (s.machine.conclude halt).1 = .failed e ∧ ∃ front back, s'.errors =
      front ++ Pretty.excerpt s.color (.ofString source) e.line ++ back := by
  unfold conclude at ran
  cases concluded : s.machine.conclude halt with
  | mk outcome machine =>
      rw [concluded] at ran
      cases outcome with
      | finished => cases ran
      | unfinished => cases ran
      | failed e =>
          have same := sameBut_sayLog { s with machine }
          obtain ⟨front, back, shown⟩ :=
            reportRuntimeError_shows (same.format.trans pretty) e source
          cases ran
          rw [same.color] at shown
          exact ⟨e, rfl, front, back, shown⟩

/-- A run of a script of a session that fails shows a line of the given source. -/
theorem run_shows {limit : Nat} {source : String} {script : Routine} {s s' : Session}
    (pretty : s.format = .pretty)
    (ran : { s with
      machine := ((s.machine.begin script).2.execute limit (s.machine.begin script).1).2 }.conclude
        source ((s.machine.begin script).2.execute limit (s.machine.begin script).1).1 =
          (some .software, s')) :
    ∃ e, (s.machine.run limit script).1 = .failed e ∧ ∃ front back, s'.errors =
      front ++ Pretty.excerpt s.color (.ofString source) e.line ++ back :=
  conclude_shows (s := { s with
    machine := ((s.machine.begin script).2.execute limit (s.machine.begin script).1).2 })
    pretty ran

/-- Whatever an input leads to, the report of its failure shows the line of that number in
the input itself. -/
theorem execute_shows {limit : Nat} {source : String} {s s' : Session}
    (pretty : s.format = .pretty) (ran : s.execute limit source = (some .software, s')) :
    ∃ script log e, (s.machine.compile source).1 = .ok script ∧
      (({ (s.machine.compile source).2 with log } : Machine).run limit script).1 = .failed e ∧
        ∃ front back, s'.errors =
          front ++ Pretty.excerpt s.color (.ofString source) e.line ++ back := by
  unfold execute load at ran
  cases compiled : s.machine.compile source with
  | mk result machine =>
      rw [compiled] at ran
      cases result with
      | error errors => cases ran
      | ok script =>
          have logged := sameBut_sayLog { s with machine }
          obtain ⟨log, same⟩ := logged.machine
          refine ⟨script, log, ?_⟩
          rw [← same]
          have color := logged.color
          simp only at ran
          split at ran
          · obtain ⟨e, failed, shows⟩ :=
              run_shows (s := ({ s with machine }.sayLog).say script.list)
                (logged.format.trans pretty) ran
            exact ⟨e, rfl, failed, color ▸ shows⟩
          · obtain ⟨e, failed, shows⟩ := run_shows (logged.format.trans pretty) ran
            exact ⟨e, rfl, failed, color ▸ shows⟩

/-- An input that calls a function of an earlier input which then fails: the line shown is
the call, and not the line of the function. -/
theorem shows_line_of_later_input :
    ((Session.start { Options.none with format := some .pretty } false).toOption.map fun s =>
      (s.converse 100 ["fn f() { return -true; }".toUTF8, "f();".toUTF8]).2.errors) =
    some ("runtime error: operand must be a number\n  --> 1:1\n  |\n1 | f();\n  |\n" ++
      "  = [line 1] in f()\n  = [line 1] in script\n") := by
  decide +kernel

end Session
end CommandLine
end StackScript
