import Nachos.Verified.FrameClock
import Nachos.Verified.KernelStore
import Nachos.Verified.UserBuffers

/-!
# When a copy ends

The loop over whole pages of `userReadWrite` advances only when `Translate` succeeds, and the last
`ASSERT` asks that every byte was copied.  So a call ends well exactly when its range is empty or
lies in the address space, and the frames that its pages are loaded into are not taken from an owner
that has no page there.
-/

namespace Nachos

open Loops Runs

variable {pid size : Nat} {opt : TransferOpt} {space : AddrSpace} {virtAddr : BitVec 32}
  {buffer : Nat → Byte} {s : Kernel} {t : Transfer}

/-- Whatever becomes of the call, the bytes that it has copied are in the address space. -/
theorem copied_inside (sound : Sound s) (found : s.allPCB pid = some space) {made rest : List Nat}
    (sizes : copySizes virtAddr.toNat size = made ++ rest)
    (copies : copyAll pid opt made ⟨s, buffer, virtAddr, 0, size⟩ = .ok (some t)) :
    ∀ i < made.sum, ¬ space.Rejects (virtAddr + BitVec.ofNat 32 i) := by
  have start : Copying pid opt buffer virtAddr size s ([] : List Nat).length ([] : List Nat).sum
      ⟨s, buffer, virtAddr, 0, size⟩ := .start _
  intro i below
  obtain ⟨t', -, copied⟩ | ⟨none, -⟩ | ⟨fault, failed, -⟩ := start.copyAll sound found sizes
  · have limit := copied.visits.lt sound found
    rw [List.nil_append] at copied limit
    obtain ⟨-, nothing⟩ | reach := copied.visits.reach
    · omega
    have toNat : (virtAddr + BitVec.ofNat 32 i).toNat = virtAddr.toNat + i :=
      toNat_add_ofNat (by omega)
    rw [rejects_iff, not_not, toNat]
    exact copied.visits.accepts sound found (Nat.div_le_div_right (Nat.le_add_right ..))
      (Nat.div_lt_of_lt_mul (by rw [Nat.mul_comm]; omega))
  · cases none.symm.trans copies
  · cases failed.symm.trans copies

theorem ownersMapped_of_resident {first : Nat} (resident : ∀ w, first ≤ w → w ≤ v →
      (space.pageTable w).valid = true) (lower : first ≤ v) : OwnersMapped s pid space first v := by
  intro gone
  refine absurd ⟨resident v lower (Nat.le_refl v), ?_⟩ gone
  rw [clock_of_resident fun w first last => resident w first (by omega)]

theorem userReadWrite_ends_iff (sound : Sound s) (swaps : SwapsWhole s)
    (found : s.allPCB pid = some space) (buffer : Nat → Byte) (virtAddr : BitVec 32) (size : Nat)
    (opt : TransferOpt) : (∃ result, userReadWrite pid buffer virtAddr size opt s = .ok result) ↔
      (size = 0 ∨ space.Contains virtAddr size) ∧
        ∀ v, rangePages virtAddr.toNat size v → space.Accepts v →
          OwnersMapped s pid space (virtAddr.toNat / pageSize) v := by
  cases userReadWrite_outcome opt buffer virtAddr size sound found with
  | @completed j t inside result copying all =>
    refine ⟨fun _ => ⟨inside, fun v covers accepts => ?_⟩, fun _ => ⟨_, result⟩⟩
    obtain ⟨i, rfl⟩ := Nat.exists_eq_add_of_le (rangePages_le covers)
    have visited := all _ covers accepts
    exact (copying.visits.clocked sound found).2 i (by omega)
  | outside outside result =>
    refine ⟨?_, fun within => absurd within.1 outside⟩
    rintro ⟨_, ended⟩
    obtain failed | failed := result <;> cases failed.symm.trans ended
  | failed fails result =>
    refine ⟨?_, fun within => absurd fails (OwnersMapped.not_fails sound swaps found within.2)⟩
    rintro ⟨_, ended⟩
    cases result.symm.trans ended

/-- In every reachable state a call of `userReadWrite` ends exactly when its range is empty or in the
address space, and the owners of the frames taken for its pages are found.  For another range it
ends in an endless loop or a failed `ASSERT`.  When the pages of the range that the process has are
in memory, only the range matters.  The bytes copied are in the address space in any case. -/
theorem copy_ends_iff {bigEndian : Bool} {junk : Nat → BitVec 32} {files : Files}
    {history : List (Kernel × SystemOp)} {s : Kernel} {pid : Nat} {space : AddrSpace}
    (run : Run SystemStep (boot bigEndian junk files) history s)
    (fits : SizesFit s) (found : s.allPCB pid = some space) (buffer : Nat → Byte)
    (virtAddr : BitVec 32) (size : Nat) (opt : TransferOpt) :
    ((∃ result, userReadWrite pid buffer virtAddr size opt s = .ok result) ↔
      (size = 0 ∨ space.Contains virtAddr size) ∧
        ∀ v, rangePages virtAddr.toNat size v → space.Accepts v →
          OwnersMapped s pid space (virtAddr.toNat / pageSize) v) ∧
    (¬ (size = 0 ∨ space.Contains virtAddr size) →
      (∀ v, rangePages virtAddr.toNat size v → space.Accepts v →
        OwnersMapped s pid space (virtAddr.toNat / pageSize) v) →
      userReadWrite pid buffer virtAddr size opt s = .error .endlessLoop ∨
        userReadWrite pid buffer virtAddr size opt s = .error .assertion) ∧
    ((∀ v < space.numPages, rangePages virtAddr.toNat size v →
        (space.pageTable v).valid = true) →
      ((∃ result, userReadWrite pid buffer virtAddr size opt s = .ok result) ↔
        size = 0 ∨ space.Contains virtAddr size)) ∧
    ∀ made rest t, copySizes virtAddr.toNat size = made ++ rest →
      copyAll pid opt made ⟨s, buffer, virtAddr, 0, size⟩ = .ok (some t) →
      ∀ i < made.sum, ¬ space.Rejects (virtAddr + BitVec.ofNat 32 i) := by
  have sound := system_sound run
  have swaps := swapsWhole_of_run run fits
  have ends := userReadWrite_ends_iff sound swaps found buffer virtAddr size opt
  refine ⟨ends, fun beyond owners => ?_, fun resident => ends.trans ⟨And.left, fun inside => ⟨inside,
    fun v covers accepts => ?_⟩⟩, fun _ _ _ sizes copies => copied_inside sound found sizes copies⟩
  · cases userReadWrite_outcome opt buffer virtAddr size sound found with
    | completed inside => exact absurd inside beyond
    | outside _ result => exact result
    | failed fails => exact absurd fails (OwnersMapped.not_fails sound swaps found owners)
  · refine ownersMapped_of_resident (fun w lower upper => resident w ?_ ?_) (rangePages_le covers)
    · exact Nat.lt_of_le_of_lt upper accepts.1
    · simp only [rangePages, pageSize] at *
      omega

/-- A program has touched its first page; a copy that starts there and ends in the second page, for
which there is a clear frame. -/
theorem copy_of_two_pages_ends : ∃ history s result,
    Run SystemStep (bootWith fourBytes) history s ∧
    userReadWrite 0 (fun _ => 7#8) 100#32 100 .r s = .ok result := by
  simp only [exists_and_left]
  refine computed_systemRun (fun s => SizesFit s ∧ ∃ space, s.allPCB 0 = some space ∧
      space.Contains 100#32 100 ∧ (space.pageTable 0).valid = true ∧
      (space.pageTable 1).valid = false ∧ (clock s 0 space 0 1).mgr.memoryMap.numClear ≠ 0)
    [.start (.path "prog") 0, .pageFault 0 0#32] (by decide +kernel)
    fun history s run checked => ?_
  obtain ⟨fits, space, found, contains, firstPage, -, clear⟩ := checked
  refine (copy_ends_iff run fits found (fun _ => 7#8) 100#32 100 .r).1.mpr
    ⟨.inr contains, fun v covers _ => ?_⟩
  have pages : v = 0 ∨ v = 1 := by
    simp only [rangePages, BitVec.toNat_ofNat, pageSize] at covers
    omega
  obtain rfl | rfl := pages
  · exact ownersMapped_of_resident (fun w _ upper => by rwa [Nat.le_zero.mp upper]) (Nat.zero_le _)
  · exact fun _ none => absurd none clear

/-- A program of nine pages asks for a copy of the page behind its last: the loop over whole pages
never ends.  For a single byte there, the `ASSERT` fails. -/
theorem copy_past_end_fails : ∃ history s space,
    Run SystemStep (bootWith fourBytes) history s ∧
    s.allPCB 0 = some space ∧ space.numPages = 9 ∧
    userReadWrite 0 (fun _ => 0#8) 1152#32 128 .w s = .error .endlessLoop ∧
    userReadWrite 0 (fun _ => 0#8) 1152#32 1 .w s = .error .assertion := by
  simp only [exists_and_left]
  exact computed_systemRun _ [.start (.path "prog") 0] (by decide +kernel) fun _ _ _ checked => checked

end Nachos
