import Nachos.Verified.PageVisits

/-!
# Runs with kernel stores

What a store of the kernel does to the page of the process and to the pages that share its frame.
Kernel stores do not ask for protection, but frames held by two processes stay protected in both.
-/

namespace Nachos

open Loops Runs

variable {pid q w : Nat} {addr : BitVec 32} {s s' : Kernel} {byte : Byte} {space : AddrSpace}
  {c : DemandCell Page}

/-! ## The effect of a store on pages -/

theorem storeInto_cell {pid f count : Nat} {writing : Bool} {bytes : Nat → Byte}
    (inFrame : InFrame s pid space addr f) (here : cell s pid (addr.toNat / pageSize) = some c) :
    cell (s.storeInto pid space (addr.toNat / pageSize) writing bytes
        (f * pageSize + addr.toNat % pageSize) count) pid (addr.toNat / pageSize) =
      some { c with
        dirty := writing || c.dirty
        content := storePage c.content bytes (addr.toNat % pageSize) count } := by
  rw [cell_of_space inFrame.found inFrame.inTable] at here
  cases here
  have resident : ¬ (f : Int) = -1 := by omega
  have filled := frame_store s.machine.mainMemory bytes f (addr.toNat % pageSize) count
  rw [Kernel.storeInto, cell_setEntry inFrame.inTable, if_pos rfl]
  simp [pageCell, TranslationEntry.touched, inFrame.maps, resident, filled, Kernel.setMemory]

/-- A page that is not in the frame is not stored to. -/
theorem storeInto_cell_other {pid f count : Nat} {writing : Bool} {bytes : Nat → Byte}
    (wf : WellFormed s) (inFrame : InFrame s pid space addr f)
    (within : addr.toNat % pageSize + count ≤ pageSize)
    (other : ¬ (q = pid ∧ w = addr.toNat / pageSize))
    (elsewhere : 0 < count → ¬ (sharing s).hold q w f) (here : cell s q w = some c) :
    cell (s.storeInto pid space (addr.toNat / pageSize) writing bytes
      (f * pageSize + addr.toNat % pageSize) count) q w = some c := by
  refine cell_setEntry_other wf inFrame.found other (fun g held => funext fun i => ?_) here
  by_cases some : 0 < count
  · have different : g ≠ f := by
      rintro rfl
      exact elsewhere some held
    exact frame_bcopy_other _ _ i.isLt within different
  · exact if_neg (by omega)

/-! ## Runs with kernel copies -/

theorem systemRun_of_run {s₀ s : Kernel} {history : List (Kernel × Op)}
    (run : Run Step s₀ history s) :
    Run SystemStep s₀ (history.map fun taken => (taken.1, .user taken.2)) s := by
  induction run with
  | start => exact .start
  | next _ taken ih => exact ih.next (.user taken)

theorem computed_systemRun {s₀ : Kernel} (check : Kernel → Prop) [DecidablePred check]
    (ops : List Op)
    (computed : (Runs.execute perform ops [] s₀).any (fun r => decide (check r.2)) = true)
    {P : Kernel → Prop}
    (shows : ∀ history s, Run SystemStep s₀ history s → check s → P s) :
    ∃ history s, Run SystemStep s₀ history s ∧ P s := by
  obtain ⟨history, s, run, checked⟩ := computed_run perform_step (fun _ s => check s) ops computed
    fun _ _ _ _ checked => checked
  exact ⟨_, s, systemRun_of_run run, shows _ s (systemRun_of_run run) checked⟩

/-- Kernel copies ignore the protection of pages.  Still, after every run of steps and copies, frames
held twice are read-only in both places, frames held are marked, and a store that goes through
changes nothing for other processes. -/
theorem copies_keep_exclusive {bigEndian : Bool} {junk : Nat → BitVec 32} {files : Files}
    {history : List (Kernel × SystemOp)}
    (run : Run SystemStep (boot bigEndian junk files) history s) :
    SharedReadOnly s ∧ HeldMarked s ∧
      ∀ p addr size value s', writeMem p addr size value s = .ok (.done s') →
        ∀ q, q ≠ p → ∀ virtAddr, accessPage s' q virtAddr = accessPage s q virtAddr := by
  have sound := system_sound run
  refine ⟨sharedReadOnly_of_coherent sound, heldMarked_of_coherent sound, ?_⟩
  intro p addr size value s' stored q other virtAddr
  exact store_accessPage sound stored fun same => other same.1

/-- The kernel stores to a page that parent and child share. -/
theorem copy_keeps_shared_page : ∃ history s, Run SystemStep (bootWith fourBytes) history s ∧
    ∃ r, userReadWrite 1 (fun _ => 9#8) 0#32 1 .r s = .ok r ∧ SharedReadOnly r.2 := by
  refine computed_systemRun
    (fun s => ∃ r, userReadWrite 1 (fun _ => 9#8) 0#32 1 .r s = .ok r ∧ True)
    [.start (.path "prog") 0, .pageFault 0 0#32, .fork 0 1] (by decide +kernel)
    fun _ _ run checked => ?_
  obtain ⟨r, copied, -⟩ := checked
  exact ⟨r, copied, (copies_keep_exclusive (run.next (.transfer copied))).1⟩

end Nachos
