import Nachos.Machine.Console

/-!
# Console input without loss

Whether the buffer of the console is empty is told by its character: an empty buffer holds `EOF`.
A byte of the input that has this value is taken for an empty buffer.  The next poll reads over it
when the kernel has not fetched it yet, and at the end of the input that poll ends Nachos.
-/

namespace Nachos

open Runs

namespace Console

variable {s s' : Console} {stream : List Byte}

def buffered (s : Console) : List Byte := if s.announced = 0 then [] else [s.incoming]

def outstanding (s : Console) : List Byte := if s.aborted then [] else s.buffered ++ s.input

def Lossless (stream : List Byte) (s : Console) : Prop := s.returned ++ s.outstanding = stream

def eofByte : Byte := BitVec.ofInt 8 eof

theorem toInt_eq_eof {c : Byte} : c.toInt = eof ↔ c = eofByte := by
  rw [← BitVec.toInt_inj]
  exact Iff.rfl

inductive Polled (s : Console) : Console → Prop where
  | idle : Polled s s
  | reads {c : Byte} {rest : List Byte} : s.incoming = eofByte → s.input = c :: rest →
      Polled s { s with incoming := c, input := rest, announced := s.announced + 1 }
  | aborts : s.incoming = eofByte → s.input = [] → Polled s { s with aborted := true }

theorem poll_cases {ready : Bool} (taken : ConsoleStep s (.poll ready) s') :
    s.aborted = false ∧ Polled s s' := by
  obtain ⟨running, polled⟩ := Option.ite_none_left_eq_some.mp taken
  refine ⟨by simpa using running, ?_⟩
  simp only [checkCharAvail, ne_eq, toInt_eq_eof] at polled
  by_cases skipped : ¬ s.incoming = eofByte ∨ ready = false
  · rw [if_pos skipped] at polled
    cases polled
    exact .idle
  · rw [if_neg skipped] at polled
    have empty : s.incoming = eofByte := not_not.mp (not_or.mp skipped).1
    cases input : s.input with
    | nil =>
      have aborts := Polled.aborts empty input
      rw [input] at polled aborts
      cases polled
      exact aborts
    | cons c rest =>
      rw [input] at polled
      cases polled
      exact .reads empty input

/-- At most one character is on its way, and it is not taken for an empty buffer. -/
structure Tracked (stream : List Byte) (s : Console) : Prop where
  lossless : Lossless stream s
  single : s.announced ≤ 1
  empty : s.announced = 0 ↔ s.incoming = eofByte

theorem new_tracked (stream : List Byte) : Tracked stream (new stream) :=
  ⟨rfl, Nat.zero_le 1, iff_of_true rfl rfl⟩

theorem Tracked.step {event : ConsoleEvent} (tracked : Tracked stream s)
    (free : eofByte ∉ stream) (taken : ConsoleStep s event s') : Tracked stream s' := by
  have lossless := tracked.lossless
  have single := tracked.single
  cases event with
  | poll ready =>
    obtain ⟨running, polled⟩ := poll_cases taken
    cases polled with
    | idle => exact tracked
    | @reads c rest isEof input =>
      have nothing := tracked.empty.mpr isEof
      have split : s.returned ++ c :: rest = stream := by
        simpa [Lossless, outstanding, buffered, running, nothing, input] using lossless
      have other : c ≠ eofByte := by
        rintro rfl
        exact free (by simp [← split])
      refine ⟨by simpa [Lossless, outstanding, buffered, running] using split, by simp [nothing],
        by simp [other]⟩
    | aborts isEof input =>
      -- the buffer is empty: every byte was returned
      have nothing := tracked.empty.mpr isEof
      refine ⟨?_, single, tracked.empty⟩
      simpa [Lossless, outstanding, buffered, running, nothing, input] using lossless
  | getChar =>
    obtain ⟨running, called⟩ := Option.ite_none_left_eq_some.mp taken
    obtain ⟨pending, fetched⟩ := Option.ite_none_left_eq_some.mp called
    cases fetched
    have one : s.announced = 1 := by omega
    refine ⟨?_, by simp [one], by simp [one, eofByte]⟩
    simpa [Lossless, outstanding, buffered, one, getChar, running] using lossless

theorem poll_step (c : Byte) (rest returned : List Byte) (announced : Nat) :
    ConsoleStep ⟨eofByte, c :: rest, announced, returned, false⟩ (.poll true)
      ⟨c, rest, announced + 1, returned, false⟩ := by
  simp [ConsoleStep, performConsole, checkCharAvail, toInt_eq_eof]

theorem poll_step_end (returned : List Byte) (announced : Nat) :
    ConsoleStep ⟨eofByte, [], announced, returned, false⟩ (.poll true)
      ⟨eofByte, [], announced, returned, true⟩ := by
  simp [ConsoleStep, performConsole, checkCharAvail, toInt_eq_eof]

theorem getChar_step (c : Byte) (rest returned : List Byte) (announced : Nat) :
    ConsoleStep ⟨c, rest, announced + 1, returned, false⟩ .getChar
      ⟨eofByte, rest, announced, returned ++ [c], false⟩ := rfl

/-- The kernel fetches each character before the next poll. -/
theorem run_alternating (read : List Byte) {rest : List Byte} {history : List (Console × ConsoleEvent)}
    {s₀ : Console} {returned : List Byte}
    (run : Run ConsoleStep s₀ history ⟨eofByte, read ++ rest, 0, returned, false⟩) :
    ∃ history', Run ConsoleStep s₀ history' ⟨eofByte, rest, 0, returned ++ read, false⟩ := by
  induction read generalizing history returned with
  | nil => exact ⟨history, by simpa using run⟩
  | cons c read ih =>
    obtain ⟨history', all⟩ := ih
      ((run.next (poll_step c _ _ 0)).next (getChar_step c _ _ 0))
    exact ⟨history', by simpa using all⟩

/-- The byte is read, and the next poll takes the buffer for an empty one. -/
theorem polled_twice_loses (read rest : List Byte) : ∃ history s,
    Run ConsoleStep (.new (read ++ eofByte :: rest)) history s ∧
      ¬ Lossless (read ++ eofByte :: rest) s := by
  have begins : Run ConsoleStep (.new (read ++ eofByte :: rest)) []
      ⟨eofByte, read ++ eofByte :: rest, 0, [], false⟩ := .start
  obtain ⟨history, run⟩ := run_alternating read begins
  have buffered := run.next (poll_step eofByte _ _ 0)
  cases rest with
  | nil =>
    refine ⟨_, _, buffered.next (poll_step_end _ _), fun kept => ?_⟩
    simp [Lossless, outstanding] at kept
  | cons c rest =>
    refine ⟨_, _, buffered.next (poll_step c _ _ 1), fun kept => ?_⟩
    simp [Lossless, outstanding, Console.buffered] at kept

end Console

open Console

/-- No byte is lost, repeated or overwritten, however polls and calls of `GetChar` interleave, if and
only if no byte has the value of `EOF`. -/
theorem console_lossless_iff (stream : List Byte) :
    (∀ history s, Run ConsoleStep (.new stream) history s → Lossless stream s) ↔
      eofByte ∉ stream := by
  constructor
  · intro always isEof
    obtain ⟨read, rest, rfl⟩ := List.append_of_mem isEof
    obtain ⟨history, s, run, lost⟩ := polled_twice_loses read rest
    exact lost (always history s run)
  · intro free history s run
    exact (run.always (new_tracked stream) fun _ _ _ tracked taken => tracked.step free taken).lossless

/-- The input is `0xff` and then `'a'`.  Both are read before the first call of `GetChar`, and the
calls return `'a'` and then `0xff`. -/
theorem eof_byte_overwritten : ∃ history s,
    Run ConsoleStep (.new [0xff, 0x61]) history s ∧
      history.map Prod.snd = [.getChar, .getChar, .poll true, .poll true] ∧
      s.announced = 0 ∧ s.input = [] ∧ s.returned = [0x61, 0xff] ∧ ¬ Lossless [0xff, 0x61] s := by
  refine labelled_run id (fun _ s => s = ⟨eofByte, [], 0, [0x61, 0xff], false⟩)
    (by decide +kernel) fun history s _ isState => ?_
  subst isState
  exact ⟨rfl, rfl, rfl, by simp [Lossless, outstanding, buffered]⟩

end Nachos
