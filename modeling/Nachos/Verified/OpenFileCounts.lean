import Nachos.Verified.FileTables

/-!
# Reference counts of open files

The counter of an entry of the system table is the number of descriptors bound to it, in every
state, as long as no `Open` finds its name among the descriptors of the process: that `Open` returns
the descriptor it has found, but raises the counter, so that the entry is never released.  What
`FindPOFByName` reads at a descriptor is the name and the heap behind it, up to a `NUL`, so that a
process that opens a file twice may also get a second descriptor.
-/

namespace Nachos

open Loops Runs RefCount

/-- The counter of every entry in use is the number of its descriptors, which is not zero. -/
def OpenFiles.CountersMatch (s : OpenFiles) : Prop :=
  ∀ k sof, s.sofMgr.Has k sof → sof.counter.toNat = (s.users k).card ∧ (s.users k).Nonempty

namespace OpenFiles

variable {s : OpenFiles}

theorem card_users_le (s : OpenFiles) (k : Nat) : (s.users k).card ≤ pidMapSize * pofMaxNum := by
  refine (Finset.card_filter_le _ _).trans ?_
  rw [Finset.card_product, Finset.card_range, Finset.card_range]

theorem Bound.countersMatch (bound : Bound s) (exact : Exact s.counts) : s.CountersMatch := by
  intro k sof has
  have counted : (s.users k).card = sof.counter.toNat := (exact k).trans (count_of_has has)
  refine ⟨counted.symm, Finset.card_pos.mp ?_⟩
  rw [counted]
  exact Nat.pos_of_ne_zero (bound.counted has)

theorem CountersMatch.exact (bound : Bound s) (countersMatch : s.CountersMatch) : Exact s.counts := by
  intro k
  by_cases inUse : ∃ sof, s.sofMgr.Has k sof
  · obtain ⟨sof, has⟩ := inUse
    rw [count_of_has has, (countersMatch k sof has).1]
    rfl
  · push Not at inUse
    rw [count_of_free inUse]
    show (s.users k).card = 0
    rw [bound.users_of_free inUse, Finset.card_empty]

/-- A counter that is right is far from its greatest value. -/
theorem noWrap_of_exact (exact : Exact s.counts) (call : FileCall) : call.NoWrap s := by
  cases call with
  | openFile current filename behind id =>
    intro k sof has _
    have counted : (s.users k).card = sof.counter.toNat := (exact k).trans (count_of_has has)
    have small := card_users_le s k
    rw [counted] at small
    have bound : pidMapSize * pofMaxNum = 1024 := rfl
    omega
  | _ => trivial

theorem boot_exact (files : Files) (junk : Nat → BitVec 32) : Exact (boot files junk).counts := by
  have bound := boot_bound files junk
  intro k
  have free : ∀ sof, ¬ (boot files junk).sofMgr.Has k sof := fun _ => Slots.not_has_empty
  rw [count_of_free free]
  show ((boot files junk).users k).card = 0
  rw [bound.users_of_free free, Finset.card_empty]

end OpenFiles

/-- Every counter is the number of descriptors bound to its entry, in every state of a run, if
and only if no `Open` finds its name among the descriptors of the process. -/
theorem counters_match_iff {files : Files} {junk : Nat → BitVec 32}
    {history : List (OpenFiles × FileCall)} {s : OpenFiles}
    (run : Run FileStep (.boot files junk) history s) :
    Throughout OpenFiles.CountersMatch history s ↔
      Guarded (fun before call => ¬ call.Reopens before) history := by
  apply run.throughout_iff_guarded (I := fun t => t.Bound ∧ Exact t.counts)
  · exact ⟨OpenFiles.boot_bound files junk, OpenFiles.boot_exact files junk⟩
  · intro t call t' ⟨bound, exact⟩ notOpen step
    obtain ⟨after, ⟨-, balanced⟩ | ⟨isOpen, -⟩⟩ :=
      step.effect bound (OpenFiles.noWrap_of_exact exact call)
    · exact ⟨after, balanced.exact exact⟩
    · exact absurd isOpen notOpen
  · intro t ⟨bound, exact⟩
    exact bound.countersMatch exact
  · intro t call t' ⟨bound, exact⟩ against step countersMatch
    obtain ⟨after, ⟨notOpen, -⟩ | ⟨-, k, leaked⟩⟩ :=
      step.effect bound (OpenFiles.noWrap_of_exact exact call)
    · exact against notOpen
    · have still := countersMatch.exact after
      rw [leaked] at still
      exact leak_not_exact exact k still

/-! ## Computed runs -/

def performFile (call : FileCall) (s : OpenFiles) : Option OpenFiles :=
  match call with
  | .create pid =>
    if pid < pidMapSize ∧ (s.allPCB pid).isNone ∧ ∀ other < pid, (s.allPCB other).isSome then
      some (s.setPCB pid (some (.empty pofMaxNum fun _ => 0#32)))
    else none
  | .openFile current filename behind id =>
    match s.openSystemcall current filename behind with
    | .ok (value, s') => if value = id then some s' else none
    | .error _ => none
  | .close current id =>
    match s.allPCB current with
    | some table =>
      if table.map.inRange (id - 2) ∧ table.map.bit (id - 2).toNat then
        (s.closeSystemcall current id).toOption
      else none
    | none => none
  | .write current id buffer size => (s.writeSystemcall current id buffer size).toOption
  | .read current id buffer size => (s.readSystemcall current id buffer size).toOption.map Prod.snd
  | .exit current => if (s.allPCB current).isSome then (s.deletePCB current).toOption else none
  | .kill current victim =>
    if (s.allPCB current).isSome ∧ (s.allPCB victim).isSome then (s.deletePCB victim).toOption
    else none

theorem performFile_step {call : FileCall} {s s' : OpenFiles}
    (performed : performFile call s = some s') : FileStep s call s' := by
  cases call with
  | create pid =>
    obtain ⟨⟨isPid, free, least⟩, same⟩ := Option.ite_none_right_eq_some.mp performed
    cases same
    exact .create isPid (Option.isNone_iff_eq_none.mp free)
      fun other below => Option.isSome_iff_ne_none.mp (least other below)
  | openFile current filename behind id =>
    simp only [performFile] at performed
    split at performed
    next value t run =>
      obtain ⟨rfl, same⟩ := Option.ite_none_right_eq_some.mp performed
      cases same
      exact .openFile run
    next => cases performed
  | close current id =>
    simp only [performFile] at performed
    split at performed
    next table entry =>
      obtain ⟨⟨inside, isSet⟩, run⟩ := Option.ite_none_right_eq_some.mp performed
      exact .close ⟨table, entry, inside, isSet⟩ (toOption_eq_some run)
    next => cases performed
  | write current id buffer size => exact .write (toOption_eq_some performed)
  | read current id buffer size =>
    obtain ⟨⟨result, t⟩, run, rfl⟩ := Option.map_eq_some_iff.mp performed
    exact .read (toOption_eq_some run)
  | exit current =>
    obtain ⟨isLive, run⟩ := Option.ite_none_right_eq_some.mp performed
    exact .exit (Option.isSome_iff_ne_none.mp isLive) (toOption_eq_some run)
  | kill current victim =>
    obtain ⟨⟨isLive, isVictim⟩, run⟩ := Option.ite_none_right_eq_some.mp performed
    exact .kill (Option.isSome_iff_ne_none.mp isLive) (Option.isSome_iff_ne_none.mp isVictim)
      (toOption_eq_some run)

instance (s : OpenFiles) (call : FileCall) : Decidable (call.Reopens s) :=
  match call with
  | .openFile current filename _ _ =>
    match entry : s.allPCB current with
    | some table =>
      decidable_of_iff (OpenFiles.findPOFByName filename table ≠ -1)
        ⟨fun isOpen => ⟨table, entry, isOpen⟩, fun ⟨_, same, isOpen⟩ => by
          rw [entry] at same
          exact Option.some.inj same ▸ isOpen⟩
    | none => isFalse fun ⟨_, same, _⟩ => by
        rw [entry] at same
        cases same
  | .create _ | .close _ _ | .write _ _ _ _ | .read _ _ _ _ | .exit _ | .kill _ _ =>
    isFalse id

/-- Two processes share a file.  One has opened it twice, with other characters behind the name the
first time, and closes its first descriptor; the other ends. -/
theorem counters_match_shared_file : ∃ history s,
    Run FileStep (.boot (.only (.path "f") .empty) fun _ => 0#32) history s ∧
      history.map Prod.snd = [.exit 1, .close 0 2, .openFile 1 "f" "" 2, .openFile 0 "f" "" 3,
        .openFile 0 "f" "oo" 2, .create 1, .create 0] ∧
      Throughout OpenFiles.CountersMatch history s := by
  refine labelled_run performFile_step (fun history _ =>
      Guarded (fun before call => ¬ call.Reopens before) history) (by decide +kernel)
    fun history s run fresh => ?_
  exact (counters_match_iff run).mpr fresh

/-- A process opens a file twice and closes it: the entry stays in use, with no descriptor. -/
theorem reopened_file_leaks : ∃ history s,
    Run FileStep (.boot (.only (.path "f") .empty) fun _ => 0#32) history s ∧
      history.map Prod.snd = [.close 0 2, .openFile 0 "f" "" 2, .openFile 0 "f" "" 2, .create 0] ∧
      (∃ sof, s.sofMgr.Has 0 sof ∧ sof.counter = 1#32) ∧ (s.users 0).card = 0 ∧
      ¬ Throughout OpenFiles.CountersMatch history s := by
  refine labelled_run performFile_step (fun _ s => 0 < s.sofMgr.map.numBits ∧
      s.sofMgr.map.bit 0 = true ∧ (∃ sof, s.sofMgr.array 0 = some sof ∧ sof.counter = 1#32) ∧
      (s.users 0).card = 0)
    (by decide +kernel) fun history s _ checked => ?_
  obtain ⟨inside, isSet, ⟨sof, entry, counter⟩, noUsers⟩ := checked
  have has : s.sofMgr.Has 0 sof := ⟨inside, isSet, entry⟩
  refine ⟨⟨sof, has, counter⟩, noUsers, ?_⟩
  intro countersMatch
  have same := (countersMatch.2 0 sof has).1
  rw [counter, noUsers] at same
  exact absurd same (by decide)

end Nachos
