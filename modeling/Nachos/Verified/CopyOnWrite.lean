import Nachos.Verified.FrameSharing

/-!
# Copy-on-write exclusivity

A frame that two page-table entries hold is read-only in both, in every reachable
state, although the owner matrix may have stale entries by then.  So a store that goes
through changes only the page of the process that made it: `accessPage` is what a
process finds when it accesses a page, in memory or through a page fault.
-/

namespace Nachos

open Loops Runs

abbrev Page := Fin pageSize → Byte

def pageOf (bytes : Nat → Byte) : Page := fun i => bytes i

@[simp] theorem pageOf_zero : (pageOf fun _ => 0#8) = fun _ => 0#8 := rfl

/-- The contents of the page of `virtAddr` that `pid` finds when it accesses
`virtAddr`: those of the frame when the page is in memory, and otherwise what `PageIn`
puts there. -/
def accessPage (s : Kernel) (pid : Nat) (virtAddr : BitVec 32) : Option Page :=
  match s.allPCB pid with
  | none => none
  | some space =>
    let vpn := virtAddr.toNat / pageSize
    let entry := space.pageTable vpn
    if space.numPages ≤ vpn then none
    else if entry.valid then some (pageOf (frame s.machine.mainMemory entry.physicalPage.toNat))
    else if space.codeDataEnd ≤ virtAddr.toNat && !entry.zeroFilled then some fun _ => 0#8
    else (readSwapPage s.files pid vpn).toOption.map pageOf

variable {q size pid f : Nat} {addr : BitVec 32} {s : Kernel} {space : AddrSpace}

/-- Two states in which `q` finds the same: the entry, the files and, for a page in
memory, the frame are the same. -/
theorem accessPage_congr {s s' : Kernel} {virtAddr : BitVec 32} {space space' : AddrSpace}
    (found : s.allPCB q = some space) (found' : s'.allPCB q = some space')
    (pages : space'.numPages = space.numPages) (entry : space'.pageTable (virtAddr.toNat / pageSize)
      = space.pageTable (virtAddr.toNat / pageSize)) (ends : space'.codeDataEnd = space.codeDataEnd)
    (files : s'.files = s.files) (memory : virtAddr.toNat / pageSize < space.numPages →
      (space.pageTable (virtAddr.toNat / pageSize)).valid = true → pageOf (frame
      s'.machine.mainMemory (space.pageTable (virtAddr.toNat / pageSize)).physicalPage.toNat) =
      pageOf (frame s.machine.mainMemory (space.pageTable (virtAddr.toNat /
      pageSize)).physicalPage.toNat)) :
    accessPage s' q virtAddr = accessPage s q virtAddr := by
  simp only [accessPage, found, found', pages, entry, ends, files]
  split
  next => rfl
  next inTable =>
    split
    next valid => rw [memory (by omega) valid]
    next => rfl

/-! ## Stores -/

theorem Accessed.within {pageTable : Nat → TranslationEntry} {numPages size f : Nat}
    {writing : Bool} (accessed : Accessed pageTable numPages addr size writing f)
    (sized : size = 1 ∨ size = 2 ∨ size = 4) : addr.toNat % pageSize + size ≤ pageSize :=
  aligned_within sized accessed.aligned.1 accessed.aligned.2

theorem storeBytes_size {machine : Machine} {value : BitVec 32} {bytes : Nat → Byte}
    (stored : storeBytes machine size value = .ok bytes) : size = 1 ∨ size = 2 ∨ size = 4 := by
  unfold storeBytes at stored
  split at stored
  next => exact Or.inl rfl
  next => exact Or.inr (Or.inl rfl)
  next => exact Or.inr (Or.inr rfl)
  next => cases stored

theorem Accessed.physicalPage {writing : Bool} (wf : WellFormed s)
    (found : s.allPCB pid = some space)
    (accessed : Accessed space.pageTable space.numPages addr size writing f) :
    (space.pageTable (addr.toNat / pageSize)).physicalPage = (f : Int) := by
  obtain ⟨g, bound, maps⟩ := (wf.entries found _ accessed.inTable).frame accessed.valid
  have number := accessed.frameNumber
  rw [maps, BitVec.ofInt_natCast, BitVec.toNat_ofNat] at number
  rw [maps, number]
  simp only [numPhysPages] at bound
  omega

theorem store_frame_other (sound : Sound s)
    (found : s.allPCB pid = some space)
    (accessed : Accessed space.pageTable space.numPages addr size true f)
    (within : addr.toNat % pageSize + size ≤ pageSize) (bytes : Nat → Byte) {q w g : Nat}
    (other : (sharing s).hold q w g) (elsewhere : ¬ (q = pid ∧ w = addr.toNat / pageSize)) :
    pageOf (frame (bcopy bytes (f * pageSize + addr.toNat % pageSize) size
      s.machine.mainMemory) g) = pageOf (frame s.machine.mainMemory g) := by
  have held : (sharing s).hold pid (addr.toNat / pageSize) f :=
    ⟨space, found, accessed.inTable, accessed.physicalPage sound.toWellFormed found⟩
  have writable : ¬ (sharing s).readOnly pid (addr.toNat / pageSize) := by
    rintro ⟨space', found', -, protectedPage⟩
    cases found.symm.trans found'
    simp [accessed.permitted rfl] at protectedPage
  have different : g ≠ f := by
    intro same
    subst same
    exact elsewhere (sound.coherent.exclusive held writable other)
  funext i
  exact frame_bcopy_other _ _ i.isLt within different

theorem store_accessPage {s s' : Kernel} {addr value : BitVec 32} (sound : Sound s)
    (run : writeMem pid addr size value s = .ok (.done s'))
    {virtAddr : BitVec 32}
    (elsewhere : ¬ (q = pid ∧ virtAddr.toNat / pageSize = addr.toNat / pageSize)) :
    accessPage s' q virtAddr = accessPage s q virtAddr := by
  obtain ⟨space, f, bytes, found, accessed, stored, rfl⟩ := writeMem_inv run
  have within := accessed.within (storeBytes_size stored)
  have kept : ∀ spaceQ, s.allPCB q = some spaceQ → virtAddr.toNat / pageSize < spaceQ.numPages →
      (spaceQ.pageTable (virtAddr.toNat / pageSize)).valid = true →
      pageOf (frame (bcopy bytes (f * pageSize + addr.toNat % pageSize) size s.machine.mainMemory)
        (spaceQ.pageTable (virtAddr.toNat / pageSize)).physicalPage.toNat) =
      pageOf (frame s.machine.mainMemory
        (spaceQ.pageTable (virtAddr.toNat / pageSize)).physicalPage.toNat) := by
    intro spaceQ foundQ inTable valid
    obtain ⟨g, -, mapsQ⟩ := (sound.entries foundQ _ inTable).frame valid
    rw [mapsQ, Int.toNat_natCast]
    exact store_frame_other sound found accessed within bytes
      ⟨spaceQ, foundQ, inTable, mapsQ⟩ elsewhere
  by_cases party : q = pid
  · subst party
    refine accessPage_congr found (if_pos rfl) rfl ?_ rfl rfl (kept space found)
    rw [AddrSpace.setEntry_pageTable, if_neg fun same => elsewhere ⟨rfl, same⟩]
  · cases foundQ : s.allPCB q with
    | none => simp [accessPage, foundQ, party, Kernel.setMemory]
    | some spaceQ =>
      exact accessPage_congr foundQ ((if_neg party).trans foundQ) rfl rfl rfl rfl
        (kept spaceQ foundQ)

/-! ## Every reachable state -/

def SharedReadOnly (s : Kernel) : Prop :=
  ∀ p v q w spaceP spaceQ, s.allPCB p = some spaceP → v < spaceP.numPages →
    s.allPCB q = some spaceQ → w < spaceQ.numPages → ¬ (p = q ∧ v = w) →
    (spaceP.pageTable v).physicalPage ≠ -1 →
    (spaceP.pageTable v).physicalPage = (spaceQ.pageTable w).physicalPage →
    (spaceP.pageTable v).readOnly = true ∧ (spaceQ.pageTable w).readOnly = true

def HeldMarked (s : Kernel) : Prop :=
  ∀ p v space, s.allPCB p = some space → v < space.numPages →
    (space.pageTable v).physicalPage ≠ -1 →
    ∃ f < numPhysPages, (space.pageTable v).physicalPage = (f : Int) ∧
      s.memoryMgr.memoryMap.bit f = true

theorem sharedReadOnly_of_coherent (sound : Sound s) :
    SharedReadOnly s := by
  intro p v q w spaceP spaceQ foundP inP foundQ inQ distinct resident same
  obtain ⟨f, -, maps⟩ := (sound.entries foundP v inP).resident resident
  have heldP : (sharing s).hold p v f := ⟨spaceP, foundP, inP, maps⟩
  have heldQ : (sharing s).hold q w f := ⟨spaceQ, foundQ, inQ, same ▸ maps⟩
  have parties : p ≠ q := by
    rintro rfl
    exact distinct ⟨rfl, sound.coherent.once heldP heldQ⟩
  obtain ⟨spaceP', foundP', -, protectedP⟩ := sound.coherent.sharedReadOnly heldP heldQ parties
  obtain ⟨spaceQ', foundQ', -, protectedQ⟩ := sound.coherent.sharedReadOnly heldQ heldP parties.symm
  rw [foundP] at foundP'
  rw [foundQ] at foundQ'
  cases foundP'
  cases foundQ'
  exact ⟨protectedP, protectedQ⟩

theorem heldMarked_of_coherent (sound : Sound s) :
    HeldMarked s := by
  intro p v space found inTable resident
  obtain ⟨f, bound, maps⟩ := (sound.entries found v inTable).resident resident
  have held : (sharing s).hold p v f := ⟨space, found, inTable, maps⟩
  exact ⟨f, bound, maps, (sound.coherent.inUse held).2⟩

/-- In every reachable state, frames held twice are read-only in both places, frames
held are marked, and a store that goes through changes nothing that another process
finds in its pages. -/
theorem copy_on_write_exclusive {bigEndian : Bool} {junk : Nat → BitVec 32} {files : Files}
    {history : List (Kernel × Op)} {s : Kernel}
    (run : Run Step (boot bigEndian junk files) history s) :
    SharedReadOnly s ∧ HeldMarked s ∧
      ∀ p addr size value s', writeMem p addr size value s = .ok (.done s') →
        ∀ q, q ≠ p → ∀ virtAddr, accessPage s' q virtAddr = accessPage s q virtAddr := by
  have sound := reachable_sound run
  refine ⟨sharedReadOnly_of_coherent sound, heldMarked_of_coherent sound, ?_⟩
  intro p addr size value s' stored q other virtAddr
  exact store_accessPage sound stored fun same => other same.1

/-- A program touches its first page and forks: both processes hold frame 0, read-only. -/
theorem copy_on_write_after_fork : ∃ history s,
    Run Step (bootWith fourBytes) history s ∧
    (findEntry s 0 0#32).map (·.physicalPage) = some 0 ∧
    (findEntry s 1 0#32).map (·.physicalPage) = some 0 ∧ SharedReadOnly s := by
  refine computed_run perform_step (fun _ s =>
      (findEntry s 0 0#32).map (·.physicalPage) = some 0 ∧
      (findEntry s 1 0#32).map (·.physicalPage) = some 0)
    [.start (.path "prog") 0, .pageFault 0 0#32, .fork 0 1] (by decide +kernel)
    fun history s run _ shared => ?_
  exact ⟨shared.1, shared.2, (copy_on_write_exclusive run).1⟩

end Nachos
