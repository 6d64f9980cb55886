import Nachos.Verified.FrameClock
import Nachos.Verified.Images
import Nachos.Verified.KernelStore
import Nachos.Verified.SegmentPlacement

/-!
# What a page has before it is written

A program that is one block from address 0 on finds the bytes of its executable in memory, and zeroes
after them, in every page that nothing was stored to, and this survives eviction.  There are two
exceptions.  `PageIn` compares the address that is touched and not the page with the end of the data:
when the first touch of the page where the data ends is past that end, by the program or by the kernel
for it, the whole page is zeroed, with the code and data on it.  And what the kernel stores for a
process reaches the pages of other processes in the same frame.
-/

namespace Nachos

open Runs

/-- The code starts at address 0 and the data follows it, in memory as in the file.  Their
end is an `int`, as all addresses are. -/
structure NoffHeader.Contiguous (noffH : NoffHeader) : Prop where
  atZero : noffH.code.virtualAddr = 0#32
  codeSize : 0 ≤ noffH.code.size.toInt
  dataSize : 0 ≤ noffH.initData.size.toInt
  total : noffH.code.size.toInt + noffH.initData.size.toInt < 2 ^ 31
  block : noffH.OneBlock

def executableByte (executable : File) (noffH : NoffHeader) (a : Nat) : Byte :=
  if (a : Int) < noffH.code.size.toInt then
    executable.bytes (noffH.code.inFileAddr.toInt.toNat + a)
  else if (a : Int) < noffH.code.size.toInt + noffH.initData.size.toInt then
    executable.bytes (noffH.initData.inFileAddr.toInt.toNat + (a - noffH.code.size.toInt.toNat))
  else 0#8

/-- Page `v` of `p` was stored to since the program was loaded: by `p`, by the kernel for `p`, or by
its parent before the fork. -/
def StoredTo : List (Kernel × SystemOp) → Nat → Nat → Prop
  | [], _, _ => False
  | (_, .user (.start _ pid)) :: earlier, p, v => p ≠ pid ∧ StoredTo earlier p v
  | (_, .user (.exec pid _)) :: earlier, p, v => p ≠ pid ∧ StoredTo earlier p v
  | (_, .user (.store pid addr _ _)) :: earlier, p, v =>
    (p = pid ∧ v = addr.toNat / pageSize) ∨ StoredTo earlier p v
  | (_, .user (.fork pid childPID)) :: earlier, p, v =>
    if p = childPID then StoredTo earlier pid v else StoredTo earlier p v
  | (_, .transfer pid _ virtAddr size .r) :: earlier, p, v =>
    (p = pid ∧ 0 < size ∧ rangePages virtAddr.toNat size.toNat v) ∨ StoredTo earlier p v
  | (_, _) :: earlier, p, v => StoredTo earlier p v

/-- If the page of `virtAddr` has to be loaded, and `virtAddr` is past the end of code and data on a
page that is not yet marked as zeroed, then there is no code and no data on the page. -/
def ZeroesNoData (s : Kernel) (pid : Nat) (virtAddr : BitVec 32) : Prop :=
  ∀ space ∈ s.allPCB pid, virtAddr.toNat / pageSize < space.numPages →
    (space.pageTable (virtAddr.toNat / pageSize)).valid = false →
    space.codeDataEnd ≤ virtAddr.toNat →
    (space.pageTable (virtAddr.toNat / pageSize)).zeroFilled = false →
    space.codeDataEnd ≤ virtAddr.toNat / pageSize * pageSize

instance (s : Kernel) (pid : Nat) (virtAddr : BitVec 32) : Decidable (ZeroesNoData s pid virtAddr) :=
  inferInstanceAs (Decidable (∀ space ∈ s.allPCB pid, _))

/-- The pages of the range that a copy finds in memory are not in frames of other processes. -/
def CopiesAlone (s : Kernel) (pid virtAddr size : Nat) : Prop :=
  ∀ space ∈ s.allPCB pid, ∀ v, rangePages virtAddr size v →
    (clock s pid space (virtAddr / pageSize) (v - virtAddr / pageSize)).Resident
      (space.pageTable v) →
    ∀ q w, (sharing s).hold q w (space.pageTable v).physicalPage.toNat → q = pid

/-- No page fault and no copy zeroes code or data, and no copy stores to the page of another
process.  A copy loads its first page at its first address, and any other page at the start of the
page. -/
def TouchesSafely (s : Kernel) : SystemOp → Prop
  | .user (.pageFault pid virtAddr) => ZeroesNoData s pid virtAddr
  | .transfer pid _ virtAddr size opt => ZeroesNoData s pid virtAddr ∧
      (opt = .r → 0 < size → CopiesAlone s pid virtAddr.toNat size.toNat)
  | _ => True

structure KeepingSystemStep (s : Kernel) (op : SystemOp) (s' : Kernel) : Prop where
  step : SystemStep s op s'
  kept : ExecutablesKept s s'

/-! ## Pages during a copy -/

/-- A page that a copy does not store to is in order again and has its content. -/
theorem Visits.page {pid size j k p v : Nat} {opt : TransferOpt} {buffer : Nat → Byte}
    {virtAddr : BitVec 32} {s t : Kernel} {space : AddrSpace} {loaded : Program} {executable : File}
    {c : DemandCell Page} (visits : Visits pid opt buffer virtAddr size s j k t) (sound : Sound s)
    (found : s.allPCB pid = some space) (zeroes : ZeroesNoData s pid virtAddr)
    (alone : opt = .r → 0 < size → CopiesAlone s pid virtAddr.toNat size)
    (live : program s p = some loaded) (atZero : loaded.codeDataVirtAddr = 0#32)
    (here : cell s p v = some c)
    (ok : c.Ok (imagePage executable loaded v) (loaded.codeDataEnd ≤ v * pageSize))
    (unstored : opt = .r → 0 < size → ¬ (p = pid ∧ rangePages virtAddr.toNat size v)) :
    ∃ d, cell t p v = some d ∧
      d.Ok (imagePage executable loaded v) (loaded.codeDataEnd ≤ v * pageSize) ∧
      d.dirty = c.dirty := by
  induction visits with
  | start => exact ⟨c, here, ok, rfl⟩
  | @next j k n f t t₁ addr space₁ earlier part addressable brought inFrame ih =>
    have ⟨address, page, boundary, within, most, _, covers⟩ := part
    obtain ⟨d, hereT, okT, dirtyT⟩ := ih
    obtain ⟨soundT, programs⟩ := earlier.kept sound
    have after : ∃ e, cell t₁ p v = some e ∧
        e.Ok (imagePage executable loaded v) (loaded.codeDataEnd ≤ v * pageSize) ∧
        e.dirty = c.dirty := by
      cases brought with
      | present => exact ⟨d, hereT, okT, dirtyT⟩
      | loaded found' invalid run =>
        have faults := BroughtIn.faults soundT.toWellFormed found' invalid run
        have liveT := live
        rw [← programs p] at liveT
        obtain ⟨e, there, okE, -, dirtyE⟩ := pageFault_page soundT faults run liveT atZero hereT okT
          fun isPid isPage beyond unzeroed => by
            subst isPid isPage
            obtain ⟨rfl, rfl⟩ | aligned := boundary
            · -- the first page is loaded at the first address, from the state before the call
              cases earlier
              obtain rfl : addr = virtAddr := BitVec.eq_of_toNat_eq (by omega)
              obtain ⟨space', isSpace, inTable, rfl⟩ := cell_inv hereT
              cases found'.symm.trans isSpace
              obtain ⟨space'', isSpace', rfl⟩ := program_eq_some.mp live
              cases isSpace.symm.trans isSpace'
              exact zeroes _ isSpace inTable invalid beyond unzeroed
            · have place := Nat.div_add_mod' addr.toNat pageSize
              omega
        exact ⟨e, there, okE, dirtyE.trans dirtyT⟩
    obtain ⟨e, there, okE, dirtyE⟩ := after
    have wf := (brought.sound soundT).toWellFormed
    by_cases same : p = pid ∧ v = addr.toNat / pageSize
    · obtain ⟨rfl, rfl⟩ := same
      -- nothing is stored to the page
      have none : opt.stored n = 0 := by
        cases opt with
        | w => rfl
        | r =>
          by_contra some
          exact unstored rfl (Nat.lt_of_lt_of_le (Nat.pos_of_ne_zero some) (by
            have : TransferOpt.r.stored n = n := rfl
            omega)) ⟨rfl, covers⟩
      refine ⟨_, storeInto_cell inFrame there, ?_, ?_⟩
      · have content : storePage e.content (fun i => buffer (k + i)) (addr.toNat % pageSize)
            (opt.stored n) = e.content := by
          funext i
          rw [none]
          exact if_neg (by omega)
        rw [content, Bool.false_or]
        exact okE
      · exact dirtyE
    · have less := Nat.le_trans (Nat.add_le_add_left (opt.stored_le n) _) within
      refine ⟨e, storeInto_cell_other wf inFrame less same (fun some held => same ?_) there, okE, dirtyE⟩
      have stores : opt = .r ∧ 0 < n := by
        cases opt with
        | r => exact ⟨rfl, some⟩
        | w => exact absurd some (Nat.lt_irrefl 0)
      have isBefore : addr.toNat / pageSize - virtAddr.toNat / pageSize = j := by omega
      exact earlier.alone sound found page brought inFrame
        (isBefore ▸ alone stores.1 (by omega) space found _ covers) p v held

/-! ## The invariant -/

structure Untouched (history : List (Kernel × SystemOp)) (s : Kernel) : Prop where
  sound : Sound s
  installed : Installed s
  pages : ∀ {p loaded v c}, program s p = some loaded → loaded.codeDataVirtAddr = 0#32 →
    cell s p v = some c → ¬ StoredTo history p v → ∃ executable,
      s.files loaded.execfilename = some executable ∧
      c.Ok (imagePage executable loaded v) (loaded.codeDataEnd ≤ v * pageSize) ∧ c.dirty = false

variable {history : List (Kernel × SystemOp)} {s s' : Kernel} {op : Op}

theorem storedTo_same {p v : Nat} (stays : ¬ op.replaces p)
    (unstored : ¬ StoredTo ((s, .user op) :: history) p v) : ¬ StoredTo history p v := by
  cases op with
  | start filename pid => exact fun stored => unstored ⟨stays, stored⟩
  | exec pid filename => exact fun stored => unstored ⟨stays, stored⟩
  | store pid addr size value => exact fun stored => unstored (Or.inr stored)
  | fork pid childPID =>
    have other : p ≠ childPID := stays
    simpa only [StoredTo, if_neg other] using unstored
  | load | pageFault | readOnlyFault | terminate => exact unstored

theorem Untouched.user (earlier : Untouched history s) (allowed : TouchesSafely s (.user op))
    (step : Step s op s') (kept : ExecutablesKept s s') :
    Untouched ((s, .user op) :: history) s' := by
  have sound := earlier.sound
  refine ⟨step.sound sound, earlier.installed.step sound ⟨step, kept⟩, ?_⟩
  intro p loaded v d live atZero after unstored
  rw [kept p loaded live]
  by_cases replaced : op.replaces p
  · obtain ⟨executable, opened, ⟨zeroFilled, rfl⟩ | ⟨parent, c, rfl, before, here, rfl⟩⟩ :=
      step.replaced sound kept replaced live after
    · exact ⟨executable, opened, .fresh _ _ _, rfl⟩
    · have unstoredBefore : ¬ StoredTo history parent v := by
        simpa only [StoredTo, if_true] using unstored
      obtain ⟨executable', opened', ok, clean⟩ := earlier.pages before atZero here unstoredBefore
      cases opened.symm.trans opened'
      exact ⟨executable, opened, ok.branch, clean⟩
  · have before := step.programs sound kept replaced ▸ live
    obtain ⟨c, here⟩ := cell_exists before (cell_below live after)
    obtain ⟨executable, opened, ok, clean⟩ :=
      earlier.pages before atZero here (storedTo_same replaced unstored)
    have unchanged : ¬ op.changes p v := by
      intro changed
      cases op with
      | store pid addr size value => exact unstored (Or.inl changed)
      | terminate pid => exact replaced changed
      | exec pid filename => exact replaced changed
      | start | load | pageFault | readOnlyFault | fork => exact changed.elim
    have zeroes : ∀ virtAddr, op = .pageFault p virtAddr → v = virtAddr.toNat / pageSize →
        loaded.codeDataEnd ≤ virtAddr.toNat → c.zeroFilled = false →
        loaded.codeDataEnd ≤ v * pageSize := by
      rintro virtAddr rfl rfl beyond unzeroed
      cases step with
      | pageFault faults run =>
        obtain ⟨entry, ⟨space, found, inTable, rfl⟩, invalid⟩ := faults
        obtain ⟨space', found', rfl⟩ := program_eq_some.mp before
        cases found.symm.trans found'
        cases here.symm.trans (cell_of_space found inTable)
        exact allowed space found inTable invalid beyond unzeroed
    obtain ⟨d', there, okD, -, dirty⟩ := step.page sound kept before atZero here unchanged ok zeroes
    cases there.symm.trans after
    exact ⟨executable, opened, okD, dirty.trans clean⟩

theorem Untouched.transfer {pid : Nat} {buffer buffer' : Nat → Byte} {virtAddr : BitVec 32} {size : Int}
    {opt : TransferOpt} (earlier : Untouched history s)
    (allowed : TouchesSafely s (.transfer pid buffer virtAddr size opt))
    (run : userReadWrite pid buffer virtAddr size opt s = .ok (buffer', s'))
    (kept : ExecutablesKept s s') :
    Untouched ((s, .transfer pid buffer virtAddr size opt) :: history) s' := by
  have before : ∀ {p v}, ¬ StoredTo ((s, .transfer pid buffer virtAddr size opt) :: history) p v →
      ¬ StoredTo history p v ∧ (opt = .r → 0 < size.toNat →
        ¬ (p = pid ∧ rangePages virtAddr.toNat size.toNat v)) := by
    intro p v unstored
    cases opt with
    | w => exact ⟨unstored, by simp⟩
    | r =>
      refine ⟨fun stored => unstored (.inr stored), fun _ positive covers => unstored (.inl ?_)⟩
      exact ⟨covers.1, by omega, covers.2⟩
  obtain ⟨nonneg, rfl | ⟨space, j, found, visits⟩⟩ := userReadWrite_inv earlier.sound run
  · exact ⟨earlier.sound, earlier.installed, fun live atZero here unstored =>
      earlier.pages live atZero here (before unstored).1⟩
  obtain ⟨sound, programs⟩ := visits.kept earlier.sound
  refine ⟨sound, fun p loaded live => ?_, fun {p loaded v d} live atZero after unstored => ?_⟩
  · rw [(visits.sameHost earlier.sound).bigEndian, kept p loaded live]
    exact earlier.installed p loaded (programs p ▸ live)
  · rw [kept p loaded live]
    have liveBefore := live
    rw [programs] at liveBefore
    obtain ⟨c, here⟩ := cell_exists liveBefore (cell_below live after)
    obtain ⟨unstoredBefore, uncopied⟩ := before unstored
    obtain ⟨executable, opened, ok, clean⟩ := earlier.pages liveBefore atZero here unstoredBefore
    obtain ⟨d', there, okD, dirty⟩ := visits.page earlier.sound found allowed.1
      (fun isR positive => allowed.2 isR (by omega)) liveBefore atZero here ok uncopied
    cases there.symm.trans after
    exact ⟨executable, opened, okD, dirty.trans clean⟩

theorem Untouched.step {op : SystemOp} (earlier : Untouched history s) (allowed : TouchesSafely s op)
    (taken : KeepingSystemStep s op s') : Untouched ((s, op) :: history) s' := by
  obtain ⟨step, kept⟩ := taken
  cases step with
  | user step => exact earlier.user allowed step kept
  | transfer run => exact earlier.transfer allowed run kept

/-! ## The bytes of the executable -/

theorem NoffHeader.Contiguous.codeDataSize_nonneg {noffH : NoffHeader}
    (contiguous : noffH.Contiguous) : 0 ≤ noffH.codeDataSize.toInt := by
  rw [toInt_codeDataSize contiguous.codeSize contiguous.dataSize contiguous.total]
  exact add_nonneg contiguous.codeSize contiguous.dataSize

theorem NoffHeader.Contiguous.initialByte_eq {noffH : NoffHeader} (contiguous : noffH.Contiguous)
    (seeks : 0 ≤ noffH.code.inFileAddr.toInt) (executable : File) (a : Nat) :
    initialByte executable noffH a = executableByte executable noffH a := by
  have size := toInt_codeDataSize contiguous.codeSize contiguous.dataSize contiguous.total
  have code := contiguous.codeSize
  have data := contiguous.dataSize
  have sizeNat := toInt_of_nonneg contiguous.codeDataSize_nonneg
  have start := toInt_of_nonneg seeks
  simp only [initialByte, executableByte]
  by_cases inCode : (a : Int) < noffH.code.size.toInt
  · rw [if_pos (by omega), if_pos inCode, start]
    rfl
  · rw [if_neg inCode]
    by_cases inData : (a : Int) < noffH.code.size.toInt + noffH.initData.size.toInt
    · obtain ⟨-, inFile⟩ := contiguous.block.initData (by omega)
      rw [if_pos (by omega), if_pos inData]
      congr 1
      omega
    · rw [if_neg (by omega), if_neg inData]

/-! ## Every run -/

theorem boot_untouched (bigEndian : Bool) (junk : Nat → BitVec 32) (files : Files) :
    Untouched [] (boot bigEndian junk files) where
  sound := ⟨boot_wellFormed bigEndian junk files, boot_coherent bigEndian junk files⟩
  installed p loaded live := by simp [program, boot] at live
  pages live := by simp [program, boot] at live

/-- In a run of steps and kernel copies in which no page that has code or data is zeroed, and no copy
stores to the page of another process, a load from a page that was not stored to returns the bytes of
the executable, and zeroes after them. -/
theorem first_touch_contents {bigEndian : Bool} {junk : Nat → BitVec 32} {files : Files}
    {history : List (Kernel × SystemOp)} {s : Kernel}
    (run : Run KeepingSystemStep (boot bigEndian junk files) history s)
    (allowed : Guarded TouchesSafely history) {pid size : Nat} {addr value : BitVec 32}
    {s' : Kernel} (loads : readMem pid addr size s = .ok (.done (value, s')))
    {loaded : Program} {executable : File} {noffH : NoffHeader}
    (live : program s pid = some loaded) (opened : s.files loaded.execfilename = some executable)
    (header : readHeader s.machine.bigEndian executable = .ok noffH)
    (contiguous : noffH.Contiguous)
    (unstored : ¬ StoredTo history pid (addr.toNat / pageSize)) :
    loadValue ⟨executableByte executable noffH, s.machine.bigEndian⟩ addr.toNat size =
      .ok value := by
  have untouched : Untouched history s :=
    run.historyInvariant (I := Untouched) (boot_untouched bigEndian junk files)
      (fun _ _ _ _ earlier guard taken => earlier.step guard taken) allowed
  -- the program is the one of this executable
  obtain ⟨executable', noffH', opened', origin⟩ := untouched.installed pid loaded live
  cases opened.symm.trans opened'
  obtain rfl : noffH = noffH' := Except.ok.inj (header.symm.trans origin.header)
  -- and its page is clean, so it has the bytes of the image
  obtain ⟨c, here, returned⟩ := load_content untouched.sound.toWellFormed loads
  obtain ⟨executable', opened', ok, clean⟩ :=
    untouched.pages live (origin.codeDataVirtAddr.trans contiguous.atZero) here unstored
  cases opened.symm.trans opened'
  have image := (ok.clean clean).2
  have seeks : 0 ≤ noffH.code.inFileAddr.toInt := origin.codeDataFileAddr ▸ origin.seeks
  apply returned
  intro i
  rw [image, origin.imagePage_eq contiguous.codeDataSize_nonneg, contiguous.initialByte_eq seeks]

theorem fourBytes_header : readHeader false fourBytes = .ok (linkedHeader 4 0 0) :=
  toOption_eq_some (by decide +kernel)

theorem fourBytes_contiguous : (linkedHeader 4 0 0).Contiguous :=
  ⟨by decide, by decide, by decide, by decide, by decide, by decide⟩

/-! ## Runs that are computed -/

theorem SystemStep.sameHost {op : SystemOp} (sound : Sound s) (step : SystemStep s op s') :
    SameHost s s' := by
  cases step with
  | user step => exact step.sameHost sound.toWellFormed
  | transfer run =>
    obtain ⟨-, rfl | ⟨space, j, -, visits⟩⟩ := userReadWrite_inv sound run
    · exact ⟨rfl, fun _ => rfl⟩
    · exact visits.sameHost sound

def SystemOp.LoadsPath : SystemOp → Prop
  | .user op => op.LoadsPath
  | .transfer .. => True

theorem FromPaths.systemStep {op : SystemOp} (paths : FromPaths s) (sound : Sound s)
    (loads : op.LoadsPath) (step : SystemStep s op s') : FromPaths s' := by
  cases step with
  | user step => exact paths.step sound loads step
  | transfer run =>
    obtain ⟨-, rfl | ⟨space, j, -, visits⟩⟩ := userReadWrite_inv sound run
    · exact paths
    · intro p loaded live
      exact paths p loaded ((visits.kept sound).2 p ▸ live)

/-- A run that loads no swap file modifies no executable, and no file but swap files. -/
theorem keepingSystemRun {bigEndian : Bool} {junk : Nat → BitVec 32} {files : Files}
    (run : Run SystemStep (boot bigEndian junk files) history s)
    (loads : Guarded (fun _ op => op.LoadsPath) history) :
    Run KeepingSystemStep (boot bigEndian junk files) history s ∧ FromPaths s ∧
      s.machine.bigEndian = bigEndian ∧ ∀ name, s.files (.path name) = files (.path name) := by
  induction run with
  | start =>
    refine ⟨.start, fun p loaded live => ?_, rfl, fun _ => rfl⟩
    simp [program, boot] at live
  | next earlier taken ih =>
    obtain ⟨run, paths, order, files⟩ := ih loads.tail
    have sound := system_sound earlier
    obtain ⟨sameOrder, samePaths⟩ := taken.sameHost sound
    have pathsAfter := paths.systemStep sound loads.head taken
    refine ⟨run.next ⟨taken, fun p loaded live => ?_⟩, pathsAfter, sameOrder.trans order,
      fun name => (samePaths name).trans (files name)⟩
    obtain ⟨name, isPath⟩ := pathsAfter p loaded live
    rw [isPath]
    exact samePaths name

/-- The page of `virtAddr` is touched, by the program or by the kernel that reads there for it. -/
inductive FirstTouch (virtAddr : BitVec 32) : SystemOp → Prop where
  | program : FirstTouch virtAddr (.user (.pageFault 0 virtAddr))
  | kernel (buffer : Nat → Byte) (size : Int) :
      FirstTouch virtAddr (.transfer 0 buffer virtAddr size .w)

abbrev LoadsWord (value : BitVec 32) (s : Kernel) : Prop :=
  (∃ s', perform (.load 0 0#32 4 value) s = some s' ∧ True) ∧
    ∃ loaded, program s 0 = some loaded ∧ loaded.execfilename = .path "prog"

/-- The run of the program whose page is touched at `virtAddr` and that then loads the word `value`
at 0. -/
theorem fourBytes_run {touch : SystemOp} {virtAddr : BitVec 32} (touches : FirstTouch virtAddr touch)
    (value : BitVec 32) (safe : Bool)
    (computed : (Runs.execute performSystem [.user (.start (.path "prog") 0), touch] []
      (bootWith fourBytes)).any (fun r => decide ((safe = true → ∀ taken ∈ r.1,
        ZeroesNoData taken.1 0 virtAddr) ∧ LoadsWord value r.2)) = true) :
    ∃ history s s' loaded, Run KeepingSystemStep (bootWith fourBytes) history s ∧
      (safe = true → Guarded TouchesSafely history) ∧ ¬ StoredTo history 0 0 ∧
      readMem 0 0#32 4 s = .ok (.done (value, s')) ∧ program s 0 = some loaded ∧
      s.files loaded.execfilename = some fourBytes ∧ s.machine.bigEndian = false := by
  obtain ⟨history, s, taken, ops, zeroes, ⟨s', load, -⟩, loaded, live, name⟩ :=
    computed_run performSystem_step
      (fun history s => (safe = true → ∀ taken ∈ history, ZeroesNoData taken.1 0 virtAddr) ∧
        LoadsWord value s) _ computed fun _ _ _ ops checked => And.intro ops checked
  obtain ⟨last, rest, rfl, isTouch, ops⟩ := List.map_eq_cons_iff.mp ops
  obtain ⟨first, rest, rfl, isStart, ops⟩ := List.map_eq_cons_iff.mp ops
  obtain rfl := List.map_eq_nil_iff.mp ops
  obtain ⟨t, op⟩ := last
  obtain ⟨t', op'⟩ := first
  subst isTouch isStart
  obtain ⟨run, -, order, paths⟩ := keepingSystemRun taken fun taken member => by
    obtain rfl | member := List.mem_cons.mp member
    · cases touches <;> simp [SystemOp.LoadsPath, Op.LoadsPath, Op.loads]
    · obtain rfl := List.mem_singleton.mp member
      simp [SystemOp.LoadsPath, Op.LoadsPath, Op.loads]
  have opened : s.files loaded.execfilename = some fourBytes := by
    rw [name, paths]
    rfl
  cases perform_step load with
  | load read =>
    refine ⟨_, s, s', loaded, run, fun isSafe taken member => ?_, ?_, read, live, opened, order⟩
    · have zeroed := zeroes isSafe taken member
      obtain rfl | member := List.mem_cons.mp member
      · cases touches with
        | program => exact zeroed
        | kernel => exact ⟨zeroed, fun isR => by cases isR⟩
      · obtain rfl := List.mem_singleton.mp member
        trivial
    · cases touches with
      | program => exact fun stored => stored.1 rfl
      | kernel => exact fun stored => stored.1 rfl

/-- After the kernel reads at address 0 for the program, before any fault, the program finds its
code. -/
theorem first_touch_in_code : ∃ history s s' loaded,
    Run KeepingSystemStep (bootWith fourBytes) history s ∧
    Guarded TouchesSafely history ∧ readMem 0 0#32 4 s = .ok (.done (0x04030201#32, s')) ∧
    program s 0 = some loaded ∧ s.files loaded.execfilename = some fourBytes ∧
    ¬ StoredTo history 0 0 ∧
    loadValue ⟨executableByte fourBytes (linkedHeader 4 0 0), s.machine.bigEndian⟩
      (0#32).toNat 4 = .ok 0x04030201#32 := by
  obtain ⟨history, s, s', loaded, run, allowed, unstored, read, live, opened, order⟩ :=
    fourBytes_run (.kernel (fun _ => 0#8) 2 : FirstTouch 0#32 _) 0x04030201#32 true (by decide +kernel)
  exact ⟨history, s, s', loaded, run, allowed rfl, read, live, opened, unstored,
    first_touch_contents run (allowed rfl) read live opened (order ▸ fourBytes_header)
      fourBytes_contiguous unstored⟩

/-- After a fault at address 8, past the code but on its page, the program finds 0 in its
place. -/
theorem first_touch_past_code : ∃ history s s' loaded,
    Run KeepingSystemStep (bootWith fourBytes) history s ∧
    readMem 0 0#32 4 s = .ok (.done (0#32, s')) ∧ program s 0 = some loaded ∧
    s.files loaded.execfilename = some fourBytes ∧
    readHeader s.machine.bigEndian fourBytes = .ok (linkedHeader 4 0 0) ∧
    (linkedHeader 4 0 0).Contiguous ∧ ¬ StoredTo history 0 0 ∧
    loadValue ⟨executableByte fourBytes (linkedHeader 4 0 0), s.machine.bigEndian⟩
      (0#32).toNat 4 = .ok 0x04030201#32 := by
  obtain ⟨history, s, s', loaded, run, -, unstored, read, live, opened, order⟩ :=
    fourBytes_run (.program : FirstTouch 8#32 _) 0#32 false (by decide +kernel)
  have code : loadValue ⟨executableByte fourBytes (linkedHeader 4 0 0), false⟩ (0#32).toNat 4 =
      .ok 0x04030201#32 := toOption_eq_some (by decide +kernel)
  exact ⟨history, s, s', loaded, run, read, live, opened, order ▸ fourBytes_header,
    fourBytes_contiguous, unstored, order ▸ code⟩

end Nachos
