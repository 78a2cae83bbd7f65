import JsonCleave.Reading
/-!
# Programs: whatever reads a container and ends

A reading makes a number of calls that its answers bound in advance. A program may also loop, for
instance until its view is closed: the number of its calls is bounded only once the length of the
source is known. Beyond that it is like a reading: its next call depends on nothing but the
answers so far.
-/

namespace JsonCleave

/-- A function on readers that on every reader agrees with some reading. Readers of bounded length
share one. -/
structure Program (β : Type) where
  run : Reader → Reading.Run β
  runWithout : β × List Entry
  exists_reading : ∀ n : Nat, ∃ reading : Reading β,
    reading.runWithout = runWithout ∧
      ∀ r : Reader, r.cursor.pending.length ≤ n → reading.run r = run r

namespace Reading

variable {β γ : Type}

theorem run_map (f : β → γ) (reading : Reading β) (r : Reader) :
    (reading.map f).run r =
      ⟨f (reading.run r).result, (reading.run r).reader, (reading.run r).log⟩ := by
  induction reading generalizing r with
  | give result => rfl
  | report entry rest ih =>
    have hrest := ih r
    unfold map at hrest
    simp [map, bind, run, hrest]
  | ask call rest ih => exact ih _ _

theorem runWithout_map (f : β → γ) (reading : Reading β) :
    (reading.map f).runWithout = (f reading.runWithout.1, reading.runWithout.2) := by
  induction reading with
  | give result => rfl
  | report entry rest ih =>
    unfold map at ih
    simp [map, bind, runWithout, ih]
  | ask call rest ih => exact ih _

end Reading

namespace Program

variable {β γ : Type}

def ofReading (reading : Reading β) : Program β where
  run := reading.run
  runWithout := reading.runWithout
  exists_reading _ := ⟨reading, rfl, fun _ _ => rfl⟩

@[simp] theorem run_ofReading (reading : Reading β) (r : Reader) :
    (ofReading reading).run r = reading.run r := rfl

def map (f : β → γ) (program : Program β) : Program γ where
  run r :=
    let run := program.run r
    ⟨f run.result, run.reader, run.log⟩
  runWithout := (f program.runWithout.1, program.runWithout.2)
  exists_reading n := by
    obtain ⟨reading, hwithout, hrun⟩ := program.exists_reading n
    refine ⟨reading.map f, ?_, fun r hr => ?_⟩
    · rw [Reading.runWithout_map, hwithout]
    · rw [Reading.run_map, hrun r hr]

theorem length_pending_run_le (program : Program β) (r : Reader) :
    (program.run r).reader.cursor.pending.length ≤ r.cursor.pending.length := by
  obtain ⟨reading, -, hrun⟩ := program.exists_reading r.cursor.pending.length
  rw [← hrun r (Nat.le_refl _)]
  exact reading.length_pending_run_le r

end Program

end JsonCleave
