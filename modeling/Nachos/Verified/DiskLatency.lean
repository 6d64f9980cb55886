import Nachos.Machine.DiskTiming

/-!
# Disk latency

A request that is not served from the track buffer ends when its sector has passed under the head.
The buffer is filled from a sector boundary on, and serves a sector that has passed since as a whole.
-/

namespace Nachos

open Loops Runs

namespace DiskHead

variable {s s' : DiskHead} {sector : Int}

structure Aligned (s : DiskHead) : Prop where
  time : 0 ≤ s.totalTicks
  sector : 0 ≤ s.lastSector
  buffer : 0 ≤ s.bufferInit
  boundary : s.bufferInit % 500 = 0

theorem timeToSeek_seek (aligned : Aligned s) (nonneg : 0 ≤ sector) :
    (s.timeToSeek sector).1 = (sector / 32 - s.lastSector / 32).natAbs * 500 := by
  show ((sector.tdiv 32 - s.lastSector.tdiv 32).natAbs : Int) * 500 = _
  rw [Int.tdiv_eq_ediv_of_nonneg nonneg, Int.tdiv_eq_ediv_of_nonneg aligned.sector]

theorem timeAfter_spec (aligned : Aligned s) (nonneg : 0 ≤ sector) :
    s.timeAfter sector % 500 = 0 ∧ s.totalTicks + (s.timeToSeek sector).1 ≤ s.timeAfter sector ∧
      s.timeAfter sector < s.totalTicks + (s.timeToSeek sector).1 + 500 := by
  have seek := timeToSeek_seek aligned nonneg
  have time := aligned.time
  have past : (s.timeToSeek sector).2 =
      if (s.totalTicks + (s.timeToSeek sector).1) % 500 > 0 then
        500 - (s.totalTicks + (s.timeToSeek sector).1) % 500 else 0 := by
    show (if (s.totalTicks + (s.timeToSeek sector).1).tmod 500 > 0 then
      500 - (s.totalTicks + (s.timeToSeek sector).1).tmod 500 else 0) = _
    rw [Int.tmod_eq_emod_of_nonneg (by omega)]
  simp only [timeAfter, past]
  split <;> omega

/-- How many sectors pass before the one that is wanted begins. -/
theorem moduloDiff_spec (position : Int) (nonneg : 0 ≤ sector) (begun : 0 ≤ position) :
    0 ≤ moduloDiff sector position ∧ moduloDiff sector position < 32 ∧
      (position + moduloDiff sector position) % 32 = sector % 32 := by
  have value : moduloDiff sector position = (sector % 32 - position % 32 + 32) % 32 := by
    show (sector.tmod 32 - position.tmod 32 + 32).tmod 32 = _
    rw [Int.tmod_eq_emod_of_nonneg nonneg, Int.tmod_eq_emod_of_nonneg begun,
      Int.tmod_eq_emod_of_nonneg (by omega)]
  omega

def finish (s : DiskHead) (sector : Int) (writing : Bool) : Int :=
  s.totalTicks + s.computeLatency sector writing

theorem finish_eq {writing : Bool} (aligned : Aligned s) (nonneg : 0 ≤ sector)
    (unbuffered : s.trackBuffer sector writing = false) :
    s.finish sector writing = s.timeAfter sector +
      moduloDiff sector (s.timeAfter sector / 500) * 500 + 500 := by
  obtain ⟨_, later, _⟩ := timeAfter_spec aligned nonneg
  have seek := timeToSeek_seek aligned nonneg
  have time := aligned.time
  have latency : s.computeLatency sector writing = (s.timeToSeek sector).1 +
      ((s.timeToSeek sector).2 + moduloDiff sector ((s.timeAfter sector).tdiv 500) * 500) + 500 :=
    if_neg (by simp [unbuffered])
  rw [finish, latency, Int.tdiv_eq_ediv_of_nonneg (by omega), timeAfter]
  omega

def Passes (sector first last : Int) : Prop :=
  ∃ turn, turn % 32 = sector % 32 ∧ first ≤ turn * 500 ∧ (turn + 1) * 500 ≤ last

structure Timely (s : DiskHead) (sector : Int) (writing : Bool) : Prop where
  positive : 0 < s.computeLatency sector writing
  boundary : s.trackBuffer sector writing = false → s.finish sector writing % rotationTime = 0
  position : s.trackBuffer sector writing = false →
    (s.finish sector writing / rotationTime - 1) % sectorsPerTrack = sector % sectorsPerTrack
  bound : s.trackBuffer sector writing = false → s.computeLatency sector writing <
    (s.timeToSeek sector).1 + (sectorsPerTrack + 1) * rotationTime
  /-- The buffer serves reads of the current track whose sector has passed by the next boundary. -/
  buffered : s.trackBuffer sector writing = true →
    writing = false ∧ sector / sectorsPerTrack = s.lastSector / sectorsPerTrack ∧
      ∃ boundary, boundary % rotationTime = 0 ∧ s.totalTicks ≤ boundary ∧
        boundary < s.totalTicks + rotationTime ∧ Passes sector s.bufferInit boundary

theorem Aligned.timely (aligned : Aligned s) (nonneg : 0 ≤ sector) (writing : Bool) :
    Timely s sector writing := by
  obtain ⟨boundary, later, before⟩ := timeAfter_spec aligned nonneg
  have seek := timeToSeek_seek aligned nonneg
  have time := aligned.time
  cases applies : s.trackBuffer sector writing with
  | false =>
    have ends := finish_eq aligned nonneg applies
    obtain ⟨least, most, wanted⟩ := moduloDiff_spec (s.timeAfter sector / 500) nonneg
      (by omega)
    refine ⟨?_, fun _ => ?_, fun _ => ?_, fun _ => ?_, fun buffered => ?_⟩
    · rw [finish] at ends
      omega
    · show s.finish sector writing % 500 = 0
      omega
    · show (s.finish sector writing / 500 - 1) % 32 = sector % 32
      omega
    · show _ < (s.timeToSeek sector).1 + (32 + 1) * 500
      rw [finish] at ends
      omega
    · rw [applies] at buffered
      cases buffered
  | true =>
    obtain ⟨reads, still, passed⟩ : writing = false ∧ (s.timeToSeek sector).1 = 0 ∧
        (s.timeAfter sector - s.bufferInit).tdiv 500 > moduloDiff sector (s.bufferInit.tdiv 500) :=
      of_decide_eq_true applies
    have begun := aligned.boundary
    have buffer := aligned.buffer
    rw [Int.tdiv_eq_ediv_of_nonneg buffer] at passed
    obtain ⟨least, _, wanted⟩ := moduloDiff_spec (s.bufferInit / 500) nonneg (by omega)
    -- division truncates, but a negative difference would not exceed the number of sectors
    have after : 0 ≤ s.timeAfter sector - s.bufferInit := by
      by_contra negative
      have opposite := Int.tdiv_nonneg (a := s.bufferInit - s.timeAfter sector) (b := 500) (by omega)
        (by omega)
      rw [← Int.neg_sub, Int.neg_tdiv] at opposite
      omega
    rw [Int.tdiv_eq_ediv_of_nonneg after] at passed
    have latency : s.computeLatency sector writing = 500 := if_pos applies
    refine ⟨by omega, ?_, ?_, ?_, fun _ => ⟨reads, ?_, s.timeAfter sector, boundary, by omega, ?_,
      s.bufferInit / 500 + moduloDiff sector (s.bufferInit / 500), wanted, by omega, by omega⟩⟩
    · simp [applies]
    · simp [applies]
    · simp [applies]
    · show sector / 32 = s.lastSector / 32
      omega
    · show s.timeAfter sector < s.totalTicks + 500
      omega

theorem new_aligned : Aligned .new := ⟨by decide, by decide, by decide, by decide⟩

theorem Aligned.step {event : DiskHeadEvent} (aligned : Aligned s)
    (taken : DiskHeadStep s event s') : Aligned s' := by
  have time := aligned.time
  cases event with
  | request sector writing =>
    obtain ⟨_, _, done⟩ := bind_eq_ok.mp (toOption_eq_some taken)
    obtain ⟨_, inside, done⟩ := bind_eq_ok.mp done
    cases done
    obtain ⟨nonneg, _⟩ := Disk.inRange_iff.mp (assert_eq_ok.mp inside)
    obtain ⟨boundary, later, _⟩ := timeAfter_spec aligned nonneg
    have seek := timeToSeek_seek aligned nonneg
    refine ⟨time, nonneg, ?_, ?_⟩
    all_goals
      simp only [updateLast]
      split
    · omega
    · exact aligned.buffer
    · exact boundary
    · exact aligned.boundary
  | interrupt =>
    obtain ⟨_, done⟩ := Option.ite_none_right_eq_some.mp taken
    cases done
    exact { aligned with }
  | pass ticks =>
    cases taken
    exact { aligned with time := Int.add_nonneg time (Int.natCast_nonneg ticks) }

end DiskHead

open DiskHead

end Nachos
