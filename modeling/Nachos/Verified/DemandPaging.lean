import Nachos.Verified.Images

/-!
# Demand paging is transparent

To a program that is linked at address 0 its memory is one array of bytes: the initial
image, changed by the stores of the program and inherited at `Fork`.  `lastStored` is that
array, computed from the history of a run.  Paging, eviction and copy-on-write change
nothing in it, except on the page that has the end of code and data inside, which
`PageIn` may zero.
-/

namespace Nachos

open Runs

/-- The bytes of page `vpn` of `pid`: those of its frame, or of its page of the swap
file when it has none. -/
def logicalPage (s : Kernel) (pid vpn : Nat) : Option Page :=
  match s.allPCB pid with
  | none => none
  | some space =>
    if vpn < space.numPages then
      some (if (space.pageTable vpn).physicalPage = -1 then swapPage s.files pid vpn
        else pageOf (frame s.machine.mainMemory (space.pageTable vpn).physicalPage.toNat))
    else none

theorem logicalPage_eq (s : Kernel) (pid vpn : Nat) :
    logicalPage s pid vpn = (cell s pid vpn).map DemandCell.content := by
  unfold logicalPage cell
  cases s.allPCB pid with
  | none => rfl
  | some space =>
    by_cases inTable : vpn < space.numPages
    · simp [inTable, pageCell]
    · simp [inTable]

/-! ## The memory that a program sees -/

def loadedByte (s : Kernel) (filename : FileName) (a : Nat) : Byte :=
  match s.files filename with
  | none => 0#8
  | some executable =>
    match readHeader s.machine.bigEndian executable with
    | .ok noffH => initialByte executable noffH a
    | .error _ => 0#8

/-- The byte that `p` last stored at address `a`, or its parent before the fork, or else
the byte of the initial image. -/
def lastStored : List (Kernel × Op) → Nat → Nat → Byte
  | [], _ => fun _ => 0#8
  | (s, op) :: earlier, p =>
    match op with
    | .start filename pid => if p = pid then loadedByte s filename else lastStored earlier p
    | .store pid addr size value =>
      match storeBytes s.machine size value with
      | .ok bytes =>
        if p = pid then bcopy bytes addr.toNat size (lastStored earlier p)
        else lastStored earlier p
      | .error _ => lastStored earlier p
    | .fork pid childPID => if p = childPID then lastStored earlier pid else lastStored earlier p
    | _ => lastStored earlier p

/-! ## Programs and steps -/

/-- The program is linked at address 0, and its code and data fit the swap file. -/
def Program.LinkedAtZero (loaded : Program) : Prop :=
  loaded.codeDataVirtAddr = 0#32 ∧ loaded.codeDataSize ≤ loaded.swapFileSize

instance (loaded : Program) : Decidable loaded.LinkedAtZero := inferInstanceAs (Decidable (_ ∧ _))

def Program.EndsInside (loaded : Program) (v : Nat) : Prop :=
  v * pageSize < loaded.codeDataEnd ∧ loaded.codeDataEnd < (v + 1) * pageSize

instance (loaded : Program) (v : Nat) : Decidable (loaded.EndsInside v) :=
  inferInstanceAs (Decidable (_ ∧ _))

def wholePages : PageSet where
  has loaded v := loaded.LinkedAtZero ∧ ¬ loaded.EndsInside v
  atZero whole := whole.1.1

def DirtyResident (s : Kernel) (pid : Nat) : Prop :=
  ∀ space v, s.allPCB pid = some space → v < space.numPages →
    (space.pageTable v).dirty = true → (space.pageTable v).physicalPage ≠ -1

/-- Accesses, faults, new processes, and forks of a process whose dirty pages are
resident. -/
def PagingOp (s : Kernel) : Op → Prop
  | .fork pid _ => DirtyResident s pid
  | .terminate _ => False
  | .exec _ _ => False
  | _ => True

def Op.IsFault : Op → Prop
  | .pageFault _ _ => True
  | .readOnlyFault _ _ => True
  | _ => False

/-- A fault past the end of code and data is on a page past the end. -/
theorem wholePages_zeroes (s : Kernel) (op : Op) : ZeroesPastEnd wholePages s op := by
  cases op with
  | pageFault pid virtAddr =>
    intro loaded c _ whole _ beyond _
    have below : virtAddr.toNat < (virtAddr.toNat / pageSize + 1) * pageSize :=
      Nat.lt_mul_of_div_lt (Nat.lt_succ_self _) (by decide)
    have outside := whole.2
    simp only [Program.EndsInside, not_and, not_lt] at outside
    by_contra inside
    have := outside (by omega)
    omega
  | _ => trivial

/-! ## The invariant -/

structure Transparent (history : List (Kernel × Op)) (s : Kernel) : Prop where
  wf : WellFormed s
  coherent : (sharing s).Coherent
  images : Images wholePages s
  content : ∀ {p loaded v c}, program s p = some loaded → wholePages.has loaded v →
    cell s p v = some c →
    ∀ i : Fin pageSize, c.content i = lastStored history p (v * pageSize + i)

variable {history : List (Kernel × Op)} {s s' : Kernel} {p v pid : Nat} {d : DemandCell Page}
  {loaded : Program}

/-- A step says nothing about pages that it neither replaces nor changes. -/
theorem lastStored_same {op : Op} (step : Step s op s') (stays : ¬ op.replaces p)
    (unchanged : ¬ op.changes p v) (i : Fin pageSize) :
    lastStored ((s, op) :: history) p (v * pageSize + i) =
      lastStored history p (v * pageSize + i) := by
  cases step with
  | @start _ filename pid run =>
    have other : p ≠ pid := stays
    simp only [lastStored, if_neg other]
  | @store _ pid size addr value run =>
    obtain ⟨space, f, bytes, -, accessed, stored, -⟩ := writeMem_inv run
    have within := accessed.within (storeBytes_size stored)
    simp only [lastStored, stored]
    split
    next own =>
      -- the store stays inside its page, which is another one
      have elsewhere : v ≠ addr.toNat / pageSize := fun same => unchanged ⟨own, same⟩
      have bound := i.isLt
      have outside : ¬ (addr.toNat ≤ v * pageSize + i ∧ v * pageSize + i < addr.toNat + size) := by
        simp only [pageSize] at within elsewhere bound ⊢
        omega
      simp only [bcopy, if_neg outside]
    next => rfl
  | @fork _ pid childPID junk run =>
    have other : p ≠ childPID := stays
    simp only [lastStored, if_neg other]
  | load | pageFault | readOnlyFault | terminate | exec => rfl

theorem content_store {pid size : Nat} {addr value : BitVec 32} (sound : Sound s)
    (run : writeMem pid addr size value s = .ok (.done s'))
    (after : cell s' pid (addr.toNat / pageSize) = some d) (content : ∀ c, cell s pid (addr.toNat /
      pageSize) = some c → ∀ i : Fin pageSize, c.content i = lastStored history pid (addr.toNat /
      pageSize * pageSize + i)) (i : Fin pageSize) :
    d.content i = lastStored ((s, .store pid addr size value) :: history) pid
      (addr.toNat / pageSize * pageSize + i) := by
  obtain ⟨-, -, bytes, c, stored, within, before, -, there⟩ := store_cells sound run
  cases there.symm.trans after
  have position := Nat.div_add_mod' addr.toNat pageSize
  simp only [lastStored, stored, if_true, DemandCell.write, storePage, bcopy]
  by_cases inside : addr.toNat % pageSize ≤ i ∧ i < addr.toNat % pageSize + size
  · rw [if_pos inside, if_pos (by omega)]
    congr 1
    omega
  · rw [if_neg inside, if_neg (by omega)]
    exact content c before i

theorem Program.LoadedFrom.nonneg {bigEndian : Bool} {executable : File} {noffH : NoffHeader}
    (origin : loaded.LoadedFrom bigEndian executable noffH) (linked : loaded.LinkedAtZero) :
    0 ≤ noffH.codeDataSize.toInt := by
  have fits := BitVec.le_def.mp linked.2
  have size := toInt_of_nonneg origin.sized
  have bound := BitVec.toInt_lt (x := loaded.swapFileSize)
  rw [← origin.codeDataSize, BitVec.toInt_eq_toNat_cond]
  split <;> omega

theorem content_start {filename : FileName} (wf : WellFormed s) (kept : ExecutablesKept s s')
    (run : startProcess filename s = .ok (some pid, s')) (live : program s' pid = some loaded)
    (whole : wholePages.has loaded v) (after : cell s' pid v = some d) (i : Fin pageSize) :
    d.content i = lastStored ((s, .start filename pid) :: history) pid (v * pageSize + i) := by
  obtain ⟨-, -, executable, noffH, opened, origin, live', cells⟩ :=
    start_cells wf run (start_keeps_executable wf kept run)
  obtain rfl := Option.some.inj (live'.symm.trans live)
  have below := cell_below live after
  cases (cells v below).symm.trans after
  simp only [lastStored, if_true, loadedByte, opened, origin.header, DemandCell.fresh]
  exact origin.imagePage_eq (origin.nonneg whole.1) v i

theorem content_fork {pid childPID v : Nat} {junk : Nat → TranslationEntry}
    (earlier : Transparent history s) (kept : ExecutablesKept s s')
    (run : forkSystemcall pid junk s = .ok (some childPID, s')) (resident : DirtyResident s pid)
    (live : program s' childPID = some loaded) (whole : wholePages.has loaded v)
    (after : cell s' childPID v = some d) (i : Fin pageSize) :
    d.content i = lastStored ((s, .fork pid childPID) :: history) childPID (v * pageSize + i) := by
  obtain ⟨-, -, loaded', executable, parent, opened, child, cells⟩ :=
    fork_cells earlier.wf run (fork_keeps_executable earlier.wf kept run)
  cases child.symm.trans live
  obtain ⟨c, before, there⟩ := cells v (cell_below live after)
  cases there.symm.trans after
  obtain ⟨executable', opened', ok⟩ := earlier.images.ok parent whole before
  cases opened.symm.trans opened'
  have dirtyResident : c.dirty = true → c.resident = true := by
    obtain ⟨spaceP, foundP, belowP, rfl⟩ := cell_inv before
    intro dirty
    simpa [pageCell] using resident spaceP v foundP belowP dirty
  rw [ok.branch_content dirtyResident]
  simp only [lastStored, if_true]
  exact earlier.content parent whole before i

theorem Transparent.step {op : Op} (earlier : Transparent history s) (paging : PagingOp s op)
    (taken : KeepingStep s op s') :
    Transparent ((s, op) :: history) s' := by
  obtain ⟨step, kept⟩ := taken
  have sound : Sound s := ⟨earlier.wf, earlier.coherent⟩
  obtain ⟨wf', coherent'⟩ := step.sound sound
  obtain ⟨images, retains⟩ := step.images sound earlier.images kept (wholePages_zeroes s op)
  refine ⟨wf', coherent', images, ?_⟩
  intro p loaded v d live whole after
  by_cases replaced : op.replaces p
  · cases step with
    | start run =>
      obtain rfl := replaced
      exact content_start earlier.wf kept run live whole after
    | fork junk run =>
      obtain rfl := replaced
      exact content_fork earlier kept run paging live whole after
    | terminate | exec => exact paging.elim
    | load | store | pageFault | readOnlyFault => exact replaced.elim
  · have before : program s p = some loaded := retains.programs p replaced ▸ live
    by_cases changed : op.changes p v
    · cases step with
      | store run =>
        obtain ⟨rfl, rfl⟩ := changed
        exact content_store sound run after
          fun c here => earlier.content before whole here
      | terminate | exec => exact paging.elim
      | start | load | pageFault | readOnlyFault | fork => exact changed.elim
    · intro i
      obtain ⟨c, here, content, -⟩ := retains.before replaced changed live whole after
      rw [content, earlier.content before whole here i, lastStored_same step replaced changed]

/-! ## Every run -/

theorem boot_transparent (bigEndian : Bool) (junk : Nat → BitVec 32) (files : Files) :
    Transparent [] (boot bigEndian junk files) where
  wf := boot_wellFormed bigEndian junk files
  coherent := boot_coherent bigEndian junk files
  images p loaded v live := by simp [program, boot] at live
  content live := by simp [program, boot] at live

theorem reachable_transparent {bigEndian : Bool} {junk : Nat → BitVec 32} {files : Files}
    (run : Run KeepingStep (boot bigEndian junk files) history s)
    (paging : Guarded PagingOp history) : Transparent history s :=
  run.historyInvariant (I := Transparent) (boot_transparent bigEndian junk files)
    (fun _ _ _ _ earlier guard taken => earlier.step guard taken) paging

theorem logicalPage_retained (live : program s p = some loaded)
    (programs : program s' p = program s p) (retained : Retained s s' p v) :
    logicalPage s' p v = logicalPage s p v := by
  rw [logicalPage_eq, logicalPage_eq]
  cases here : cell s p v with
  | some c =>
    obtain ⟨d, there, content, -⟩ := retained c here
    simp [there, content]
  | none =>
    cases there : cell s' p v with
    | none => rfl
    | some d =>
      -- a page of the new table is one of the old
      have below := cell_below (programs.trans live) there
      obtain ⟨c, here'⟩ := cell_exists live below
      simp [here] at here'

theorem OnlyEvicted.retained {tracked : PageSet} (evicted : OnlyEvicted s s')
    (images : Images tracked s) (live : program s p = some loaded) (followed : tracked.has loaded v) :
    Retained s s' p v := by
  intro c here
  obtain ⟨executable, -, ok⟩ := images.ok live followed here
  obtain ⟨d, there, kept⟩ := evicted.cells here
  exact ⟨d, there, (ok.keptOrEvicted kept).2, kept.dirty⟩

/-- In a run of accesses, faults, starts and forks with dirty pages resident, no fault
changes a page on which code and data do not end, nor does `PageOut` by itself, and a
load returns what the history of the run has for its bytes. -/
theorem demand_paging_transparent {bigEndian : Bool} {junk : Nat → BitVec 32} {files : Files}
    {history : List (Kernel × Op)} {s : Kernel}
    (run : Run KeepingStep (boot bigEndian junk files) history s)
    (paging : Guarded PagingOp history) :
    (∀ op s', KeepingStep s op s' → op.IsFault → ∀ p loaded v, program s p = some loaded →
      loaded.LinkedAtZero → ¬ loaded.EndsInside v → logicalPage s' p v = logicalPage s p v) ∧
    (∀ pid f s', pageOut pid f s = .ok s' → ∀ p loaded v, program s p = some loaded →
      loaded.LinkedAtZero → ¬ loaded.EndsInside v → logicalPage s' p v = logicalPage s p v) ∧
    (∀ pid addr size value s', readMem pid addr size s = .ok (.done (value, s')) →
      ∀ loaded, program s pid = some loaded → loaded.LinkedAtZero →
      ¬ loaded.EndsInside (addr.toNat / pageSize) →
      loadValue ⟨lastStored history pid, s.machine.bigEndian⟩ addr.toNat size = .ok value) := by
  obtain ⟨wf, coherent, images, content⟩ := reachable_transparent run paging
  refine ⟨?_, ?_, ?_⟩
  · intro op s' taken isFault p loaded v live linked outside
    obtain ⟨-, retains⟩ :=
      taken.step.images ⟨wf, coherent⟩ images taken.kept (wholePages_zeroes s op)
    have stays : ¬ op.replaces p := by
      cases op <;> simp_all [Op.IsFault, Op.replaces]
    have unchanged : ¬ op.changes p v := by
      cases op <;> simp_all [Op.IsFault, Op.changes]
    exact logicalPage_retained live (retains.programs p stays)
      (retains.pages p loaded v live ⟨linked, outside⟩ unchanged)
  · intro pid f s' out p loaded v live linked outside
    have evicted := pageOut_onlyEvicted out
    exact logicalPage_retained live (evicted.programs p)
      (evicted.retained images live ⟨linked, outside⟩)
  · intro pid addr size value s' loads loaded live linked outside
    obtain ⟨c, here, returned⟩ := load_content wf loads
    exact returned _ (content live ⟨linked, outside⟩ here)

/-- A program with one page of code stores a word there and loads it again. -/
theorem demand_paging_after_store : ∃ history s s',
    Run KeepingStep (bootWith (noffFile (linkedHeader 128 0 0) (List.replicate 128 7#8))) history s ∧
    Guarded PagingOp history ∧ readMem 0 4#32 4 s = .ok (.done (77#32, s')) ∧
    loadValue ⟨lastStored history 0, s.machine.bigEndian⟩ 4 4 = .ok 77#32 := by
  simp only [exists_and_left]
  refine computed_keepingRun
    (fun _ s => (∃ s', perform (.load 0 4#32 4 77#32) s = some s' ∧ True) ∧
      ∃ loaded, program s 0 = some loaded ∧ loaded.LinkedAtZero ∧ ¬ loaded.EndsInside 0)
    [.start (.path "prog") 0, .pageFault 0 4#32, .store 0 4#32 4 77#32] (by decide)
    (by decide +kernel) fun history s run _ ops checked => ?_
  obtain ⟨⟨s', load, -⟩, loaded, live, linked, whole⟩ := checked
  have paging : Guarded PagingOp history := by
    intro taken member
    have listed : taken.2 ∈ history.map Prod.snd := List.mem_map_of_mem member
    simp only [ops, List.mem_reverse, List.mem_cons, List.not_mem_nil, or_false] at listed
    obtain isOp | isOp | isOp := listed <;>
    · rw [isOp]
      trivial
  cases perform_step load with
  | load read =>
    exact ⟨paging, s', read,
      (demand_paging_transparent run paging).2.2 0 4#32 4 77#32 s' read loaded live linked whole⟩

end Nachos
