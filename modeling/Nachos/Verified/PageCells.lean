import Nachos.Lib.DemandCell
import Nachos.Verified.CopyOnWrite

/-!
# Pages as demand-loaded cells

A page of a live process is a `DemandCell`: its frame is the working copy and its page
of the swap file the backing copy.  Each routine that moves pages performs transitions
of the cells; which process or frame is involved no longer matters above this module.
-/

namespace Nachos

open Loops

/-! ## The cell of a page -/

def swapPage (files : Files) (pid v : Nat) : Page :=
  match files (.swap pid) with
  | some file => pageOf fun i => file.bytes (v * pageSize + i)
  | none => fun _ => 0#8

def pageCell (memory : Nat → Byte) (swap : Page) (entry : TranslationEntry) : DemandCell Page where
  resident := entry.physicalPage != -1
  dirty := entry.dirty
  zeroFilled := entry.zeroFilled
  backing := swap
  content := if entry.physicalPage = -1 then swap
    else pageOf (frame memory entry.physicalPage.toNat)

def cell (s : Kernel) (pid v : Nat) : Option (DemandCell Page) :=
  match s.allPCB pid with
  | none => none
  | some space =>
    if v < space.numPages then
      some (pageCell s.machine.mainMemory (swapPage s.files pid v) (space.pageTable v))
    else none

/-- An address space without its page table: what is fixed when a program is loaded. -/
@[ext] structure Program where
  numPages : Nat
  codeDataSize : BitVec 32
  codeDataVirtAddr : BitVec 32
  codeDataFileAddr : BitVec 32
  swapFileSize : BitVec 32
  execfilename : FileName
  deriving DecidableEq

def AddrSpace.program (space : AddrSpace) : Program where
  numPages := space.numPages
  codeDataSize := space.codeDataSize
  codeDataVirtAddr := space.codeDataVirtAddr
  codeDataFileAddr := space.codeDataFileAddr
  swapFileSize := space.swapFileSize
  execfilename := space.execfilename

def program (s : Kernel) (pid : Nat) : Option Program := (s.allPCB pid).map AddrSpace.program

def Program.codeDataEnd (program : Program) : Nat :=
  (program.codeDataSize + program.codeDataVirtAddr).toNat

variable {s s' t : Kernel} {pid v vpn q f size : Nat} {loaded : Program} {space : AddrSpace}
  {entry : TranslationEntry} {files : Files} {page : Nat → Byte} {addr value : BitVec 32}

theorem program_eq_some :
    program s pid = some loaded ↔ ∃ space, s.allPCB pid = some space ∧ space.program = loaded := by
  simp [program]

theorem cell_of_space (found : s.allPCB pid = some space) (bound : v < space.numPages) :
    cell s pid v =
      some (pageCell s.machine.mainMemory (swapPage s.files pid v) (space.pageTable v)) := by
  simp [cell, found, bound]

theorem cell_setEntry (bound : v < space.numPages) :
    cell (s.setSpace pid (some (space.setEntry vpn entry))) pid v =
      some (pageCell s.machine.mainMemory (swapPage s.files pid v)
        (if v = vpn then entry else space.pageTable v)) := by
  simp [cell, bound]

theorem cell_setSpace_other (s : Kernel) (space : Option AddrSpace) (other : q ≠ pid) (v : Nat) :
    cell (s.setSpace pid space) q v = cell s q v := by
  simp [cell, other]

theorem cell_inv {c : DemandCell Page} (here : cell s pid v = some c) :
    ∃ space, s.allPCB pid = some space ∧ v < space.numPages ∧
      c = pageCell s.machine.mainMemory (swapPage s.files pid v) (space.pageTable v) := by
  unfold cell at here
  split at here
  next => cases here
  next space found =>
    split at here
    next bound => exact ⟨space, found, bound, (Option.some.inj here).symm⟩
    next => cases here

theorem cell_exists (live : program s pid = some loaded) (below : v < loaded.numPages) :
    ∃ c, cell s pid v = some c := by
  obtain ⟨space, found, rfl⟩ := program_eq_some.mp live
  exact ⟨_, cell_of_space found below⟩

theorem cell_below {c : DemandCell Page} (live : program s pid = some loaded)
    (here : cell s pid v = some c) : v < loaded.numPages := by
  obtain ⟨space, found, below, -⟩ := cell_inv here
  obtain ⟨space', found', rfl⟩ := program_eq_some.mp live
  cases found.symm.trans found'
  exact below

theorem cell_congr (tables : s'.allPCB q = s.allPCB q)
    (memory : s'.machine.mainMemory = s.machine.mainMemory)
    (swap : s'.files (.swap q) = s.files (.swap q)) (v : Nat) : cell s' q v = cell s q v := by
  simp only [cell, tables, memory, swapPage, swap]

theorem program_congr (tables : s'.allPCB q = s.allPCB q) :
    program s' q = program s q := by
  simp only [program, tables]

theorem program_setSpace {space' : AddrSpace} (found : s.allPCB pid = some space)
    (tables : s'.allPCB = (s.setSpace pid (some space')).allPCB)
    (same : space'.program = space.program) (q : Nat) :
    program s' q = program s q := by
  by_cases party : q = pid
  · subst party
    simp [program, tables, found, same]
  · simp [program, tables, party]

theorem cell_setSpace_same {space' : AddrSpace} (found : s.allPCB pid = some space)
    (tables : s'.allPCB = (s.setSpace pid (some space')).allPCB)
    (numPages : space'.numPages = space.numPages)
    (same : ∀ memory swap v, pageCell memory swap (space'.pageTable v) =
      pageCell memory swap (space.pageTable v)) (machine : s'.machine = s.machine)
    (files : s'.files = s.files) (q v : Nat) : cell s' q v = cell s q v := by
  by_cases party : q = pid
  · subst party
    simp only [cell, tables, Kernel.setSpace_allPCB, if_true, found, numPages, machine, files, same]
  · exact cell_congr (by simp [tables, party]) (by rw [machine]) (by rw [files]) v

theorem pageCell_frame {memory memory' : Nat → Byte} {swap : Page} (ok : EntryOk entry)
    (frames : ∀ g : Nat, entry.physicalPage = (g : Int) →
      pageOf (frame memory' g) = pageOf (frame memory g)) :
    pageCell memory' swap entry = pageCell memory swap entry := by
  by_cases absent : entry.physicalPage = -1
  · simp [pageCell, absent]
  · obtain ⟨g, -, maps⟩ := ok.resident absent
    simp [pageCell, maps, frames g maps]

/-! ## Pages of a swap file -/

theorem write_page_same (file : File) (page : Nat → Byte) (v : Nat) :
    (pageOf fun i => (file.write page pageSize (v * pageSize)).bytes (v * pageSize + i)) =
      pageOf page := by
  funext i
  simp only [pageOf, File.write]
  rw [if_pos (by omega), Nat.add_sub_cancel_left]

theorem write_page_other (file : File) (page : Nat → Byte) {v w : Nat} (different : w ≠ v) :
    (pageOf fun i => (file.write page pageSize (v * pageSize)).bytes (w * pageSize + i)) =
      pageOf fun i => file.bytes (w * pageSize + i) := by
  funext i
  have bound := i.isLt
  have outside : ¬ (v * pageSize ≤ w * pageSize + i ∧
      w * pageSize + i < v * pageSize + pageSize) := by
    simp only [pageSize] at bound ⊢
    omega
  simp only [pageOf, File.write, if_neg outside]

/-- The swap file after page `v`, in frame `f`, was paged out: that page is saved when it
is dirty, and no other page of any swap file changes. -/
theorem SwappedOut.swapPage_same (swapped : SwappedOut s pid space v f files) :
    swapPage files pid v = if (space.pageTable v).dirty then pageOf (frame s.machine.mainMemory f)
      else swapPage s.files pid v := by
  obtain ⟨clean, rfl⟩ | ⟨dirty, file, opened, rfl⟩ := swapped
  · simp [clean]
  · simp only [swapPage, Files.set_same, dirty, if_true]
    exact write_page_same file _ v

theorem SwappedOut.swapPage_other (swapped : SwappedOut s pid space v f files) {q w : Nat}
    (other : ¬ (q = pid ∧ w = v)) :
    swapPage files q w = swapPage s.files q w := by
  obtain ⟨-, rfl⟩ | ⟨-, file, opened, rfl⟩ := swapped
  · rfl
  · by_cases party : q = pid
    · subst party
      have different : w ≠ v := fun same => other ⟨rfl, same⟩
      simp only [swapPage, Files.set_same, opened]
      exact write_page_other file _ different
    · have name : FileName.swap q ≠ FileName.swap pid := by simpa using party
      simp only [swapPage, Files.set_other _ name]

theorem SwappedOut.paths (swapped : SwappedOut s pid space v f files) (name : String) :
    files (.path name) = s.files (.path name) := by
  obtain ⟨-, rfl⟩ | ⟨-, file, -, rfl⟩ := swapped
  · rfl
  · exact Files.set_other _ (by simp)

/-! ## Eviction -/

structure OnlyEvicted (s t : Kernel) : Prop where
  programs : ∀ q, program t q = program s q
  cells : ∀ {q v c}, cell s q v = some c → ∃ d, cell t q v = some d ∧ c.KeptOrEvicted d
  machine : t.machine = s.machine
  paths : ∀ name, t.files (.path name) = s.files (.path name)
  entries : ∀ {q space}, s.allPCB q = some space → ∃ space', t.allPCB q = some space' ∧
    space'.numPages = space.numPages ∧ ∀ v, space'.pageTable v = space.pageTable v ∨
      space'.pageTable v = (space.pageTable v).evicted

theorem OnlyEvicted.refl (s : Kernel) : OnlyEvicted s s where
  programs _ := rfl
  cells here := ⟨_, here, Or.inl rfl⟩
  machine := rfl
  paths _ := rfl
  entries found := ⟨_, found, rfl, fun _ => Or.inl rfl⟩

theorem OnlyEvicted.trans {s t u : Kernel} (first : OnlyEvicted s t) (second : OnlyEvicted t u) :
    OnlyEvicted s u where
  programs q := (second.programs q).trans (first.programs q)
  cells := by
    intro q v c here
    obtain ⟨d, hereT, keptT⟩ := first.cells here
    obtain ⟨e, hereU, keptU⟩ := second.cells hereT
    exact ⟨e, hereU, keptT.trans keptU⟩
  machine := second.machine.trans first.machine
  paths name := (second.paths name).trans (first.paths name)
  entries := by
    intro q space found
    obtain ⟨space₁, found₁, pages₁, entries₁⟩ := first.entries found
    obtain ⟨space₂, found₂, pages₂, entries₂⟩ := second.entries found₁
    refine ⟨space₂, found₂, pages₂.trans pages₁, fun v => ?_⟩
    -- evicting twice is evicting once
    obtain same₁ | evicted₁ := entries₁ v
    · rw [← same₁]
      exact entries₂ v
    · right
      obtain same₂ | evicted₂ := entries₂ v
      · rw [same₂, evicted₁]
      · rw [evicted₂, evicted₁]
        rfl

theorem pageCell_evicted {memory : Nat → Byte} {swap swap' : Page}
    (maps : entry.physicalPage = (f : Int))
    (saved : swap' = if entry.dirty then pageOf (frame memory f) else swap) :
    pageCell memory swap' entry.evicted = (pageCell memory swap entry).evict := by
  have resident : ¬ (f : Int) = -1 := by omega
  subst saved
  simp [pageCell, TranslationEntry.evicted, DemandCell.evict, maps, resident]

theorem SwappedOut.onlyEvicted (found : s.allPCB pid = some space)
    (bound : space.findPage f < space.numPages)
    (swapped : SwappedOut s pid space (space.findPage f) f files) :
    OnlyEvicted s ({ s with files := files }.setSpace pid
      (some (space.setEntry (space.findPage f) (space.pageTable (space.findPage f)).evicted))) := by
  refine ⟨program_setSpace found rfl rfl, fun {q v c} here => ?_, rfl, swapped.paths,
    fun {q spaceQ} foundQ => ?_⟩
  · by_cases party : q = pid
    · subst party
      obtain ⟨space', found', inTable, rfl⟩ := cell_inv here
      cases found.symm.trans found'
      refine ⟨_, cell_of_space (if_pos rfl) inTable, ?_⟩
      rw [AddrSpace.setEntry_pageTable]
      split
      next victim =>
        -- the page in the frame
        subst victim
        have maps := findPage_spec bound
        refine Or.inr ⟨by simp [pageCell, maps], ?_⟩
        exact pageCell_evicted maps swapped.swapPage_same
      next other =>
        left
        rw [Kernel.setSpace_files, swapped.swapPage_other fun same => other same.2]
        rfl
    · -- another process: neither its table nor its swap file is touched
      refine ⟨c, ?_, Or.inl rfl⟩
      obtain ⟨space', found', inTable, rfl⟩ := cell_inv here
      rw [cell_of_space ((if_neg party).trans found') inTable, Kernel.setSpace_files,
        swapped.swapPage_other fun same => party same.1]
      rfl
  · by_cases party : q = pid
    · subst party
      cases found.symm.trans foundQ
      refine ⟨_, if_pos rfl, rfl, fun v => ?_⟩
      rw [AddrSpace.setEntry_pageTable]
      split
      next here => exact Or.inr (here ▸ rfl)
      next => exact Or.inl rfl
    · exact ⟨spaceQ, (if_neg party).trans foundQ, rfl, fun v => Or.inl rfl⟩

theorem pageOut_onlyEvicted (run : pageOut pid f s = .ok s') :
    OnlyEvicted s s' := by
  obtain ⟨space, files, found, bound, swapped, rfl⟩ := pageOut_inv run
  exact swapped.onlyEvicted found bound

theorem EvictedOwner.onlyEvicted (evicted : EvictedOwner f pid s s') : OnlyEvicted s s' := by
  cases evicted with
  | skipped => exact OnlyEvicted.refl s
  | pagedOut owned found bound swapped =>
    -- striking the owner is not seen in any cell
    obtain ⟨programs, cells, machine, paths, entries⟩ := swapped.onlyEvicted found bound
    exact ⟨programs, cells, machine, paths, entries⟩

theorem GotPage.onlyEvicted {sharedPage : Int} (got : GotPage pid sharedPage s f t) :
    OnlyEvicted s t := by
  cases got with
  | @evicted u isVictim full loop =>
    have rounds : OnlyEvicted s u :=
      forUpToM_invariant (fun _ u => OnlyEvicted s u) loop (OnlyEvicted.refl s)
        fun _ _ _ _ earlier round => earlier.trans (evictOwner_inv round).onlyEvicted
    exact ⟨rounds.programs, rounds.cells, rounds.machine, rounds.paths, rounds.entries⟩
  | clear =>
    exact ⟨fun _ => rfl, fun here => ⟨_, here, Or.inl rfl⟩, rfl, fun _ => rfl,
      fun found => ⟨_, found, rfl, fun _ => Or.inl rfl⟩⟩

/-! ## Filling a frame -/

theorem fillPage_program (found : t.allPCB pid = some space) (q : Nat) :
    program (t.fillPage pid space vpn f page entry) q = program t q :=
  program_setSpace found rfl (by rfl) q

theorem cell_setEntry_other {memory : Nat → Byte} {c : DemandCell Page} (wf : WellFormed s)
    (found : s.allPCB pid = some space) (other : ¬ (q = pid ∧ v = vpn))
    (frames : ∀ g, (sharing s).hold q v g →
      pageOf (frame memory g) = pageOf (frame s.machine.mainMemory g))
    (here : cell s q v = some c) :
    cell ((s.setMemory memory).setSpace pid (some (space.setEntry vpn entry))) q v = some c := by
  obtain ⟨spaceQ, foundQ, inTable, rfl⟩ := cell_inv here
  have same : pageCell memory (swapPage s.files q v) (spaceQ.pageTable v) =
      pageCell s.machine.mainMemory (swapPage s.files q v) (spaceQ.pageTable v) :=
    pageCell_frame (wf.entries foundQ v inTable) fun g maps =>
      frames g ⟨spaceQ, foundQ, inTable, maps⟩
  by_cases party : q = pid
  · subst party
    cases found.symm.trans foundQ
    have slot : v ≠ vpn := fun same => other ⟨rfl, same⟩
    rw [cell_setEntry inTable, if_neg slot]
    exact congrArg some same
  · have foundQ' : (s.setMemory memory).allPCB q = some spaceQ := foundQ
    rw [cell_setSpace_other _ _ party, cell_of_space foundQ' inTable]
    exact congrArg some same

/-- Nothing but the page that is put there uses a frame that nobody holds. -/
theorem fillPage_cell_other {c : DemandCell Page} (wf : WellFormed t)
    (found : t.allPCB pid = some space) (unheld : (sharing t).Unheld f)
    (other : ¬ (q = pid ∧ v = vpn)) (here : cell t q v = some c) :
    cell (t.fillPage pid space vpn f page entry) q v = some c := by
  refine cell_setEntry_other wf found other (fun g held => ?_) here
  have different : g ≠ f := by
    rintro rfl
    exact unheld q v held
  exact funext fun i => frame_bcopy_frame page _ i.isLt different

theorem fillPage_cell_same (inTable : vpn < space.numPages) (maps : entry.physicalPage = (f : Int)) :
    cell (t.fillPage pid space vpn f page entry) pid vpn =
      some { resident := true
             dirty := entry.dirty
             zeroFilled := entry.zeroFilled
             backing := swapPage t.files pid vpn
             content := pageOf page } := by
  have filled : pageOf (frame (bcopy page (f * pageSize) pageSize t.machine.mainMemory) f) =
      pageOf page := by
    funext i
    exact frame_bcopy_same page _ i.isLt
  have resident : ¬ (f : Int) = -1 := by omega
  rw [Kernel.fillPage, cell_setEntry inTable, if_pos rfl]
  simp [pageCell, maps, resident, filled, Kernel.setMemory]

theorem UnsharedPage.program_eq (unshared : UnsharedPage f pid s s') (q : Nat) :
    program s' q = program s q := by
  cases unshared with
  | sole below sole found =>
    refine program_setSpace found rfl ?_ q
    unfold AddrSpace.unprotect
    split <;> rfl
  | notSole => rfl

theorem UnsharedPage.cell_eq (unshared : UnsharedPage f pid s s') (q v : Nat) :
    cell s' q v = cell s q v := by
  cases unshared with
  | sole below sole found =>
    refine cell_setSpace_same found rfl (AddrSpace.unprotect_numPages ..) (fun memory swap v => ?_)
      rfl rfl q v
    rw [AddrSpace.unprotect_pageTable]
    split <;> rfl
  | notSole => rfl

/-! ## Page faults -/

inductive FaultedCell (codeDataEnd : Nat) (virtAddr : BitVec 32) (c : DemandCell Page) :
    DemandCell Page → Prop where
  | zeroed : codeDataEnd ≤ virtAddr.toNat → c.zeroFilled = false →
      FaultedCell codeDataEnd virtAddr c (c.zeroFill fun _ => 0#8)
  | filled : (codeDataEnd ≤ virtAddr.toNat → c.zeroFilled = true) →
      FaultedCell codeDataEnd virtAddr c c.fill

theorem readSwapPage_page (bound : v * pageSize < 2 ^ 32)
    (read : readSwapPage files pid v = .ok page) :
    pageOf page = swapPage files pid v := by
  obtain ⟨file, opened, -, -, rfl⟩ := (readSwapPage_eq_ok bound).mp read
  funext i
  simp [pageOf, swapPage, opened]

theorem pageFault_cells {virtAddr : BitVec 32} (sound : Sound s)
    (faults : PageFaults s pid virtAddr) (run : pageIn pid virtAddr s = .ok s') :
    (∀ q, program s' q = program s q) ∧
      (∀ {q v c}, ¬ (q = pid ∧ v = virtAddr.toNat / pageSize) → cell s q v = some c →
        ∃ d, cell s' q v = some d ∧ c.KeptOrEvicted d) ∧
      ∃ loaded c d, program s pid = some loaded ∧
        cell s pid (virtAddr.toNat / pageSize) = some c ∧ c.resident = false ∧
        cell s' pid (virtAddr.toNat / pageSize) = some d ∧
        FaultedCell loaded.codeDataEnd virtAddr c d := by
  obtain ⟨entry₀, ⟨space₀, found₀, bound₀, rfl⟩, invalid⟩ := faults
  obtain ⟨f, t, space, page, zeroFilled, got, found, bound, contents, rfl⟩ :=
    pageIn_inv sound.memoryBits run
  obtain ⟨wfT, acquired⟩ := got.acquired sound (sound.live_lt found₀)
  have unheld := acquired.unheld sound.coherent
  have evicted := got.onlyEvicted
  refine ⟨fun q => (fillPage_program found q).trans (evicted.programs q), ?_, ?_⟩
  · intro q v c other here
    obtain ⟨d, after, kept⟩ := evicted.cells here
    exact ⟨d, fillPage_cell_other wfT found unheld other after, kept⟩
  · -- the page was not resident, so that acquiring the frame left its cell alone
    have absent : (space₀.pageTable (virtAddr.toNat / pageSize)).physicalPage = -1 := by
      cases sound.entries found₀ _ bound₀ with
      | inl mapped => simp [mapped.1] at invalid
      | inr unmapped => exact unmapped.2
    have before := cell_of_space found₀ bound₀
    obtain ⟨d, after, kept⟩ := evicted.cells before
    have sameCell := kept.of_not_resident (by simp [pageCell, absent])
    rw [cell_of_space found bound] at after
    have cells := (Option.some.inj after).trans sameCell
    have backing := congrArg DemandCell.backing cells
    have dirty := congrArg DemandCell.dirty cells
    have zeroed := congrArg DemandCell.zeroFilled cells
    have sameProgram : space.program = space₀.program := by
      have same := evicted.programs pid
      simpa [program, found, found₀] using same
    have sameEnd : space.codeDataEnd = space₀.program.codeDataEnd :=
      congrArg Program.codeDataEnd sameProgram
    simp only [pageCell] at backing dirty zeroed
    refine ⟨space₀.program, _, _, program_eq_some.mpr ⟨space₀, found₀, rfl⟩, before,
      by simp [pageCell, absent], fillPage_cell_same bound rfl, ?_⟩
    cases contents with
    | zeroed beyond notZeroed =>
      rw [sameEnd] at beyond
      rw [zeroed] at notZeroed
      simpa [DemandCell.zeroFill, pageCell, TranslationEntry.pagedIn, backing, dirty]
        using FaultedCell.zeroed (c := pageCell _ _ _) beyond notZeroed
    | swapped loaded read =>
      rw [sameEnd, zeroed] at loaded
      rw [readSwapPage_page (space.offset_lt bound) read]
      simpa [DemandCell.fill, pageCell, TranslationEntry.pagedIn, backing, dirty, zeroed]
        using FaultedCell.filled (c := pageCell _ _ _) loaded

theorem readOnlyFault_cells {virtAddr : BitVec 32} (sound : Sound s)
    (faults : ReadOnlyFaults s pid virtAddr)
    (run : cow pid virtAddr s = .ok s') :
    (∀ q, program s' q = program s q) ∧
      ∀ {q v c}, cell s q v = some c → ∃ d, cell s' q v = some d ∧ c.KeptOrEvicted d := by
  obtain ⟨_, ⟨space₀, found₀, bound₀, rfl⟩, valid, -⟩ := faults
  obtain ⟨space₁, f, t, space, oppn, found₁, bound₁, got, found, maps, -, unshared⟩ :=
    cow_inv sound.memoryBits run
  cases found₀.symm.trans found₁
  obtain ⟨g, -, maps₀⟩ := (sound.entries found₀ _ bound₀).frame valid
  have held : (sharing s).hold pid (virtAddr.toNat / pageSize) g := ⟨space₀, found₀, bound₀, maps₀⟩
  rw [maps₀] at got
  have different := got.ne_shared (sound.coherent.inUse held)
  obtain ⟨wfT, acquired⟩ := got.acquired sound (sound.live_lt found₀)
  have unheld := acquired.unheld sound.coherent
  have evicted := got.onlyEvicted
  refine ⟨fun q => ?_, fun {q v c} here => ?_⟩
  · exact (unshared.program_eq q).trans ((fillPage_program found q).trans (evicted.programs q))
  · rw [unshared.cell_eq]
    by_cases faulted : q = pid ∧ v = virtAddr.toNat / pageSize
    · -- the copy has the content of the old frame, which is still there
      obtain ⟨rfl, rfl⟩ := faulted
      obtain ⟨space₂, found₂, bound, -⟩ :=
        (acquired.hold_iff sound.coherent _ _ g).mpr ⟨held, different.symm⟩
      cases found.symm.trans found₂
      obtain ⟨d, after, kept⟩ := evicted.cells here
      rw [cell_of_space found bound] at after
      refine ⟨d, ?_, kept⟩
      rw [fillPage_cell_same bound rfl, ← after]
      have resident : ¬ (oppn : Int) = -1 := by omega
      simp [pageCell, maps, resident, TranslationEntry.copied]
    · obtain ⟨d, after, kept⟩ := evicted.cells here
      exact ⟨d, fillPage_cell_other wfT found unheld faulted after, kept⟩

/-! ## Accesses -/

theorem load_cells (run : readMem pid addr size s = .ok (.done (value, s'))) :
    (∀ q, program s' q = program s q) ∧ ∀ q v, cell s' q v = cell s q v := by
  obtain ⟨space, f, found, accessed, -, rfl⟩ := readMem_inv run
  refine ⟨program_setSpace found rfl rfl,
    cell_setSpace_same found rfl rfl (fun memory swap v => ?_) rfl rfl⟩
  rw [AddrSpace.setEntry_pageTable]
  split
  next here => simp [pageCell, TranslationEntry.touched, here]
  next => rfl

theorem loadValue_congr {first second : Machine} {a b size : Nat}
    (order : first.bigEndian = second.bigEndian)
    (bytes : ∀ k < size, first.mainMemory (a + k) = second.mainMemory (b + k)) :
    loadValue first a size = loadValue second b size := by
  unfold loadValue
  split
  next => simp only [bytes 0 (by decide)]
  next => simp only [hostShort, order, bytes 0 (by decide), bytes 1 (by decide)]
  next =>
    simp only [hostWord, order, bytes 0 (by decide), bytes 1 (by decide), bytes 2 (by decide),
      bytes 3 (by decide)]
  next => rfl

theorem loadValue_size {machine : Machine} {physAddr size : Nat}
    (loaded : loadValue machine physAddr size = .ok value) : size = 1 ∨ size = 2 ∨ size = 4 := by
  unfold loadValue at loaded
  split at loaded
  next => exact Or.inl rfl
  next => exact Or.inr (Or.inl rfl)
  next => exact Or.inr (Or.inr rfl)
  next => cases loaded

theorem load_content (wf : WellFormed s) (run : readMem pid addr size s = .ok (.done (value, s'))) :
    ∃ c, cell s pid (addr.toNat / pageSize) = some c ∧
      ∀ bytes : Nat → Byte,
        (∀ i : Fin pageSize, c.content i = bytes (addr.toNat / pageSize * pageSize + i)) →
        loadValue ⟨bytes, s.machine.bigEndian⟩ addr.toNat size = .ok value := by
  obtain ⟨space, f, found, accessed, loaded, -⟩ := readMem_inv run
  have within := accessed.within (loadValue_size loaded)
  have maps := accessed.physicalPage wf found
  have resident : ¬ (f : Int) = -1 := by omega
  refine ⟨_, cell_of_space found accessed.inTable, fun bytes content => ?_⟩
  rw [← loaded]
  apply loadValue_congr
  · rfl
  · intro k inside
    have byte := content ⟨addr.toNat % pageSize + k, by omega⟩
    simp only [pageCell, maps, resident, if_false, pageOf, frame, Int.toNat_natCast] at byte
    show bytes (addr.toNat + k) = _
    rw [Nat.add_assoc, byte]
    congr 1
    have split := Nat.div_add_mod' addr.toNat pageSize
    omega

def storePage (page : Page) (bytes : Nat → Byte) (offset size : Nat) : Page :=
  fun i => if offset ≤ i ∧ i < offset + size then bytes (i - offset) else page i

theorem frame_store (memory bytes : Nat → Byte) (f offset size : Nat) :
    pageOf (frame (bcopy bytes (f * pageSize + offset) size memory) f) =
      storePage (pageOf (frame memory f)) bytes offset size := by
  funext i
  simp only [pageOf, frame, bcopy, storePage]
  by_cases stored : offset ≤ i ∧ i < offset + size
  · rw [if_pos stored, if_pos (by omega)]
    congr 1
    omega
  · rw [if_neg stored, if_neg (by omega)]

theorem store_cells (sound : Sound s)
    (run : writeMem pid addr size value s = .ok (.done s')) :
    (∀ q, program s' q = program s q) ∧
      (∀ {q v c}, ¬ (q = pid ∧ v = addr.toNat / pageSize) → cell s q v = some c →
        cell s' q v = some c) ∧
      ∃ bytes c, storeBytes s.machine size value = .ok bytes ∧
        addr.toNat % pageSize + size ≤ pageSize ∧
        cell s pid (addr.toNat / pageSize) = some c ∧ c.resident = true ∧
        cell s' pid (addr.toNat / pageSize) =
          some (c.write (storePage c.content bytes (addr.toNat % pageSize) size)) := by
  obtain ⟨space, f, bytes, found, accessed, stored, rfl⟩ := writeMem_inv run
  have within := accessed.within (storeBytes_size stored)
  have maps := accessed.physicalPage sound.toWellFormed found
  have resident : ¬ (f : Int) = -1 := by omega
  refine ⟨program_setSpace found rfl rfl, ?_, bytes, _, stored, within,
    cell_of_space found accessed.inTable, ?_, ?_⟩
  · intro q v c elsewhere here
    exact cell_setEntry_other sound.toWellFormed found elsewhere (fun g held =>
      store_frame_other sound found accessed within bytes held elsewhere) here
  · simp [pageCell, maps, resident]
  · rw [cell_setEntry accessed.inTable, if_pos rfl]
    have filled := frame_store s.machine.mainMemory bytes f (addr.toNat % pageSize) size
    simp [pageCell, TranslationEntry.touched, DemandCell.write, maps, resident, filled,
      Kernel.setMemory]

/-! ## New and leaving processes -/

def imagePage (executable : File) (loaded : Program) (v : Nat) : Page :=
  pageOf fun i => swapImage executable loaded.codeDataSize loaded.codeDataFileAddr
    (v * pageSize + i)

structure Undisturbed (s s' : Kernel) (q : Nat) : Prop where
  program : program s' q = program s q
  cells : ∀ v, cell s' q v = cell s q v

theorem Undisturbed.trans {s t u : Kernel} (first : Undisturbed s t q) (second : Undisturbed t u q) :
    Undisturbed s u q where
  program := second.program.trans first.program
  cells v := (second.cells v).trans (first.cells v)

/-- A new swap file has the image of the executable, provided that making it did not
change the executable itself. -/
theorem allocateSwapFile_image {openFile : FileName}
    {codeDataSize codeDataFileAddr swapFileSize : BitVec 32} {files files' : Files} (run :
      allocateSwapFile pid openFile codeDataSize codeDataFileAddr swapFileSize files = .ok files')
    (kept : files' openFile = files openFile) :
    ∃ executable, files openFile = some executable ∧
      (∀ v, swapPage files' pid v =
        pageOf fun i => swapImage executable codeDataSize codeDataFileAddr (v * pageSize + i)) ∧
      ∀ name, name ≠ .swap pid → files' name = files name := by
  obtain ⟨opened, swap, found, -, -, -, image, rfl⟩ := allocateSwapFile_inv run
  have pages : ∀ v, swapPage (files.set (.swap pid) swap) pid v =
      pageOf fun i => swapImage opened codeDataSize codeDataFileAddr (v * pageSize + i) := by
    intro v
    funext i
    simp [swapPage, pageOf, image]
  by_cases own : openFile = .swap pid
  · -- the executable is the new swap file itself, which was emptied before it was read
    subst own
    simp only [Files.create, Files.set_same, Option.some.injEq] at found kept
    subst found
    have nothing : ∀ i, swapImage File.empty codeDataSize codeDataFileAddr i = 0#8 := by
      intro i
      simp [swapImage, File.empty]
    refine ⟨swap, kept.symm, fun v => ?_, fun name other => Files.set_other _ other⟩
    have emptied : ∀ i, swap.bytes i = 0#8 := fun i => (image i).trans (nothing i)
    rw [pages]
    funext i
    simp only [pageOf, nothing]
    simp [swapImage, emptied]
  · refine ⟨opened, ?_, pages, fun name other => Files.set_other _ other⟩
    simpa [Files.create, own] using found

theorem swap_name_ne (other : q ≠ pid) : FileName.swap q ≠ FileName.swap pid := by
  simpa using other

structure Program.LoadedFrom (loaded : Program) (bigEndian : Bool) (executable : File)
    (noffH : NoffHeader) : Prop where
  header : readHeader bigEndian executable = .ok noffH
  codeDataSize : loaded.codeDataSize = noffH.codeDataSize
  codeDataVirtAddr : loaded.codeDataVirtAddr = noffH.code.virtualAddr
  codeDataFileAddr : loaded.codeDataFileAddr = noffH.code.inFileAddr
  seeks : 0 ≤ loaded.codeDataFileAddr.toInt
  sized : 0 ≤ loaded.swapFileSize.toInt

theorem start_cells {filename : FileName} (wf : WellFormed s)
    (run : startProcess filename s = .ok (some pid, s'))
    (kept : s'.files filename = s.files filename) :
    (∀ q, q ≠ pid → Undisturbed s s' q) ∧ program s pid = none ∧
      ∃ executable noffH, s.files filename = some executable ∧
        (freshSpace filename noffH).program.LoadedFrom s.machine.bigEndian executable noffH ∧
        program s' pid = some (freshSpace filename noffH).program ∧
        ∀ v < (freshSpace filename noffH).numPages, cell s' pid v =
          some (.fresh (imagePage executable (freshSpace filename noffH).program v) false) := by
  obtain ⟨space, files, bound, free, constructed, rfl⟩ := startProcess_inv wf.pidBits run
  obtain ⟨executable, noffH, opened, header, rfl, allocated⟩ := construct_eq_ok.mp constructed
  obtain ⟨executable', opened', pages, others⟩ := allocateSwapFile_image allocated kept
  cases opened.symm.trans opened'
  obtain ⟨-, -, -, seeks, sized, -⟩ := allocateSwapFile_inv allocated
  refine ⟨fun q other => ⟨?_, fun v => ?_⟩, by simp [program, wf.free_pid free], executable, noffH,
    opened, ⟨header, rfl, rfl, rfl, seeks, sized⟩, by simp [program], fun v below => ?_⟩
  · exact program_congr (if_neg other)
  · apply cell_congr
    · exact if_neg other
    · rfl
    · exact others _ (swap_name_ne other)
  · have found : ({ s with pidMap := s.pidMap.markBit pid, files := files }.setSpace pid
        (some (freshSpace filename noffH))).allPCB pid = some (freshSpace filename noffH) :=
      if_pos rfl
    rw [cell_of_space found below, Kernel.setSpace_files, pages v]
    rfl

/-! ## Fork -/

theorem pageCell_shared (memory : Nat → Byte) (swap : Page) (entry : TranslationEntry) :
    pageCell memory swap entry.shared = pageCell memory swap entry := rfl

theorem pageCell_branch (memory : Nat → Byte) (swap image : Page) (entry : TranslationEntry) :
    pageCell memory image entry = (pageCell memory swap entry).branch image := by
  by_cases absent : entry.physicalPage = -1 <;> simp [pageCell, DemandCell.branch, absent]

theorem fork_cells {pid childPID : Nat} {junk : Nat → TranslationEntry} (wf : WellFormed s)
    (run : forkSystemcall pid junk s = .ok (some childPID, s')) (kept : ∀ loaded, program s pid =
      some loaded → s'.files loaded.execfilename = s.files loaded.execfilename) :
    (∀ q, q ≠ childPID → Undisturbed s s' q) ∧ program s childPID = none ∧
      ∃ loaded executable, program s pid = some loaded ∧
        s.files loaded.execfilename = some executable ∧ program s' childPID = some loaded ∧
        (∀ v < loaded.numPages, ∃ c, cell s pid v = some c ∧
          cell s' childPID v = some (c.branch (imagePage executable loaded v))) := by
  obtain ⟨space, m, files, bound, free, found, shared, allocated, rfl⟩ :=
    forkSystemcall_inv wf.pidBits run
  have loaded : program s pid = some space.program := program_eq_some.mpr ⟨space, found, rfl⟩
  obtain ⟨executable, opened, pages, others⟩ := allocateSwapFile_image allocated (kept _ loaded)
  have absent := wf.free_pid free
  refine ⟨fun q other => ⟨?_, fun v => ?_⟩, by simp [program, absent], space.program, executable,
    loaded, opened, by simp [program, AddrSpace.forkChild, AddrSpace.program], fun v below => ?_⟩
  · by_cases parent : q = pid
    · subst parent
      simp [program, other, found, AddrSpace.forkParent, AddrSpace.program]
    · simp [program, other, parent]
  · by_cases parent : q = pid
    · subst parent
      have sameSwap : swapPage files q v = swapPage s.files q v := by
        simp only [swapPage, others _ (swap_name_ne other)]
      simp only [cell, Kernel.setSpace_allPCB, if_neg other, if_true, found,
        Kernel.setSpace_files, Kernel.setSpace_machine, sameSwap, AddrSpace.forkParent]
      split
      next inTable => rw [pageCell_shared]
      next => rfl
    · apply cell_congr
      · simp [other, parent]
      · rfl
      · exact others _ (swap_name_ne other)
  · refine ⟨_, cell_of_space found below, ?_⟩
    have inTable : v < space.numPages := below
    simp only [cell, Kernel.setSpace_allPCB, if_true, Kernel.setSpace_files,
      Kernel.setSpace_machine, AddrSpace.forkChild, inTable, pageCell_shared, pages v]
    exact congrArg some (pageCell_branch _ _ _ _)

/-! ## Exit and Exec -/

theorem UnsharedPage.files_machine (unshared : UnsharedPage f pid s s') :
    s'.files = s.files ∧ s'.machine = s.machine := by
  cases unshared with
  | sole => exact ⟨rfl, rfl⟩
  | notSole => exact ⟨rfl, rfl⟩

theorem ReleasedEntry.undisturbed {t t' : Kernel} (released : ReleasedEntry pid entry t t') :
    (∀ q, Undisturbed t t' q) ∧ t'.files = t.files ∧ t'.machine = t.machine := by
  cases released with
  | skipped => exact ⟨fun q => ⟨rfl, fun v => rfl⟩, rfl, rfl⟩
  | cleared => exact ⟨fun q => ⟨rfl, fun v => rfl⟩, rfl, rfl⟩
  | unshared maps bound protectedPage unshared =>
    exact ⟨fun q => ⟨unshared.program_eq q, unshared.cell_eq q⟩, unshared.files_machine⟩

theorem releaseMemory_undisturbed {t₀ t : Kernel} (run : releaseMemory pid space t₀ = .ok t) :
    (∀ q, Undisturbed t₀ t q) ∧ t.files = t₀.files ∧ t.machine = t₀.machine := by
  apply forUpToM_invariant (fun _ t => (∀ q, Undisturbed t₀ t q) ∧ t.files = t₀.files ∧
    t.machine = t₀.machine) run
  · exact ⟨fun q => ⟨rfl, fun v => rfl⟩, rfl, rfl⟩
  · intro i _ u u' earlier round
    obtain ⟨undisturbed, files, machine⟩ := earlier
    obtain ⟨same, sameFiles, sameMachine⟩ := (releaseEntry_inv round).undisturbed
    exact ⟨fun q => (undisturbed q).trans (same q), sameFiles.trans files,
      sameMachine.trans machine⟩

theorem terminate_cells (run : terminate pid s = .ok s') :
    (∀ q, q ≠ pid → Undisturbed s s' q) ∧ program s' pid = none := by
  obtain ⟨space, found, released⟩ := terminate_inv run
  obtain ⟨undisturbed, -⟩ := releaseMemory_undisturbed released
  refine ⟨fun q other => ?_, ?_⟩
  · refine Undisturbed.trans ⟨program_congr (if_neg other), fun v => ?_⟩ (undisturbed q)
    exact cell_congr ((Kernel.setSpace_allPCB _ _ _ q).trans (if_neg other)) rfl rfl v
  · rw [(undisturbed pid).program]
    simp [program]

theorem exec_cells {filename : FileName} {junk : Nat → Bool}
    (run : replaceMemory pid filename junk s = .ok s') (kept : s'.files filename = s.files filename) :
    (∀ q, q ≠ pid → Undisturbed s s' q) ∧
      ∃ space executable noffH, s.allPCB pid = some space ∧
        s.files filename = some executable ∧
        (space.replaced filename noffH junk).program.LoadedFrom s.machine.bigEndian
          executable noffH ∧
        program s' pid = some (space.replaced filename noffH junk).program ∧
        ∀ v < space.numPages, cell s' pid v =
          some (.fresh (imagePage executable (space.replaced filename noffH junk).program v)
            (junk v)) := by
  obtain ⟨space, executable, noffH, files, t, found, opened, header, allocated, released, rfl⟩ :=
    replaceMemory_inv run
  obtain ⟨undisturbed, sameFiles, -⟩ := releaseMemory_undisturbed released
  rw [Kernel.setSpace_files, sameFiles] at kept
  obtain ⟨executable', opened', pages, others⟩ := allocateSwapFile_image allocated kept
  cases opened.symm.trans opened'
  obtain ⟨-, -, -, seeks, sized, -⟩ := allocateSwapFile_inv allocated
  refine ⟨fun q other => ?_, space, executable, noffH, found, opened,
    ⟨header, rfl, rfl, rfl, seeks, sized⟩, by simp [program], fun v below => ?_⟩
  · -- the swap file of another process is not the one that was written
    have before : Undisturbed s { s with files := files } q := by
      refine ⟨rfl, fun v => ?_⟩
      apply cell_congr
      · rfl
      · rfl
      · exact others _ (swap_name_ne other)
    have after : Undisturbed t
        (t.setSpace pid (some (space.replaced filename noffH junk))) q :=
      ⟨program_congr (if_neg other), fun v => cell_setSpace_other _ _ other v⟩
    exact before.trans ((undisturbed q).trans after)
  · have found' : (t.setSpace pid (some (space.replaced filename noffH junk))).allPCB pid =
      some (space.replaced filename noffH junk) := if_pos rfl
    rw [cell_of_space found' below, Kernel.setSpace_files, sameFiles, pages v]
    rfl

/-! ## The host and its files -/

theorem allocateSwapFile_path {openFile : FileName}
    {codeDataSize codeDataFileAddr swapFileSize : BitVec 32} {files files' : Files} (run :
      allocateSwapFile pid openFile codeDataSize codeDataFileAddr swapFileSize files = .ok files')
    (name : String) : files' (.path name) = files (.path name) := by
  obtain ⟨-, swap, -, -, -, -, -, rfl⟩ := allocateSwapFile_inv run
  exact Files.set_other _ (by simp)

structure SameHost (s s' : Kernel) : Prop where
  bigEndian : s'.machine.bigEndian = s.machine.bigEndian
  paths : ∀ name, s'.files (.path name) = s.files (.path name)

theorem Step.sameHost {op : Op} (wf : WellFormed s) (step : Step s op s') :
    SameHost s s' := by
  cases step with
  | start run =>
    obtain ⟨space, files, -, -, constructed, rfl⟩ := startProcess_inv wf.pidBits run
    obtain ⟨executable, noffH, -, -, -, allocated⟩ := construct_eq_ok.mp constructed
    exact ⟨rfl, allocateSwapFile_path allocated⟩
  | load run =>
    obtain ⟨space, f, -, -, -, rfl⟩ := readMem_inv run
    exact ⟨rfl, fun _ => rfl⟩
  | store run =>
    obtain ⟨space, f, bytes, -, -, -, rfl⟩ := writeMem_inv run
    exact ⟨rfl, fun _ => rfl⟩
  | pageFault _ run =>
    obtain ⟨f, t, space, page, zeroFilled, got, -, -, -, rfl⟩ := pageIn_inv wf.memoryBits run
    refine ⟨?_, got.onlyEvicted.paths⟩
    show t.machine.bigEndian = s.machine.bigEndian
    rw [got.onlyEvicted.machine]
  | readOnlyFault _ run =>
    obtain ⟨space₁, f, t, space, oppn, -, -, got, -, -, -, unshared⟩ := cow_inv wf.memoryBits run
    obtain ⟨files, machine⟩ := unshared.files_machine
    refine ⟨?_, fun name => ?_⟩
    · rw [machine]
      show t.machine.bigEndian = s.machine.bigEndian
      rw [got.onlyEvicted.machine]
    · rw [files]
      exact got.onlyEvicted.paths name
  | fork junk run =>
    obtain ⟨space, m, files, -, -, -, -, allocated, rfl⟩ := forkSystemcall_inv wf.pidBits run
    exact ⟨rfl, allocateSwapFile_path allocated⟩
  | terminate run =>
    obtain ⟨space, -, released⟩ := terminate_inv run
    obtain ⟨-, files, machine⟩ := releaseMemory_undisturbed released
    exact ⟨congrArg Machine.bigEndian machine, fun name => congrFun files _⟩
  | exec junk run =>
    obtain ⟨space, executable, noffH, files, t, -, -, -, allocated, released, rfl⟩ :=
      replaceMemory_inv run
    obtain ⟨-, sameFiles, machine⟩ := releaseMemory_undisturbed released
    refine ⟨congrArg Machine.bigEndian machine, fun name => ?_⟩
    rw [Kernel.setSpace_files, sameFiles]
    exact allocateSwapFile_path allocated name

def touchPages (pid first count : Nat) : List Op :=
  (List.range count).map fun i => .pageFault pid (BitVec.ofNat 32 ((first + i) * pageSize))

end Nachos
