import Nachos.Verified.PageCells

/-!
# Pages and the images they start from

`Images tracked s` says of every live process that its tracked pages are in order with
respect to the image of its executable: a page that is not dirty has the image's bytes,
wherever it is.  Every step keeps this, and only stores change the content of a page
that stays, as long as executables stay as they are and no page fault zeroes a tracked
page that has bytes of the image.
-/

namespace Nachos

structure PageSet where
  has : Program → Nat → Prop
  atZero : ∀ {loaded v}, has loaded v → loaded.codeDataVirtAddr = 0#32

def PageImage (s : Kernel) (p : Nat) (loaded : Program) (v : Nat) : Prop :=
  ∃ executable c, s.files loaded.execfilename = some executable ∧ cell s p v = some c ∧
    c.Ok (imagePage executable loaded v) (loaded.codeDataEnd ≤ v * pageSize)

def Images (tracked : PageSet) (s : Kernel) : Prop :=
  ∀ p loaded v, program s p = some loaded → v < loaded.numPages → tracked.has loaded v →
    PageImage s p loaded v

def Retained (s s' : Kernel) (p v : Nat) : Prop :=
  ∀ c, cell s p v = some c →
    ∃ d, cell s' p v = some d ∧ d.content = c.content ∧ d.dirty = c.dirty

def Op.replaces : Op → Nat → Prop
  | .start _ pid, p => p = pid
  | .fork _ childPID, p => p = childPID
  | .terminate pid, p => p = pid
  | .exec pid _, p => p = pid
  | _, _ => False

def Op.changes : Op → Nat → Nat → Prop
  | .store pid addr _ _, p, v => p = pid ∧ v = addr.toNat / pageSize
  | .terminate pid, p, _ => p = pid
  | .exec pid _, p, _ => p = pid
  | _, _, _ => False

/-- Processes keep their programs, and tracked pages their content, unless the step is
one that replaces or changes them. -/
structure Retains (tracked : PageSet) (op : Op) (s s' : Kernel) : Prop where
  programs : ∀ p, ¬ op.replaces p → program s' p = program s p
  pages : ∀ p loaded v, program s p = some loaded → tracked.has loaded v →
    ¬ op.changes p v → Retained s s' p v

def ExecutablesKept (s s' : Kernel) : Prop :=
  ∀ p loaded, program s' p = some loaded →
    s'.files loaded.execfilename = s.files loaded.execfilename

def ZeroesPastEnd (tracked : PageSet) (s : Kernel) : Op → Prop
  | .pageFault pid virtAddr => ∀ loaded c, program s pid = some loaded →
      tracked.has loaded (virtAddr.toNat / pageSize) →
      cell s pid (virtAddr.toNat / pageSize) = some c → loaded.codeDataEnd ≤ virtAddr.toNat →
      c.zeroFilled = false → loaded.codeDataEnd ≤ virtAddr.toNat / pageSize * pageSize
  | _ => True

/-! ## The bytes of an image -/

variable {loaded : Program} {v p q pid : Nat} {bigEndian : Bool} {tracked : PageSet} {op : Op}
  {s s' : Kernel} {virtAddr : BitVec 32} {filename : FileName}

theorem imagePage_past {executable : File} (atZero : loaded.codeDataVirtAddr = 0#32)
    (past : loaded.codeDataEnd ≤ v * pageSize) :
    imagePage executable loaded v = fun _ => 0#8 := by
  have size : loaded.codeDataEnd = loaded.codeDataSize.toNat := by
    simp [Program.codeDataEnd, atZero]
  have signed : loaded.codeDataSize.toInt ≤ loaded.codeDataSize.toNat := by
    rw [BitVec.toInt_eq_toNat_cond]
    split <;> omega
  funext i
  simp only [imagePage, pageOf, swapImage]
  rw [if_neg (by omega)]

def initialByte (executable : File) (noffH : NoffHeader) (a : Nat) : Byte :=
  if a < noffH.codeDataSize.toNat then executable.bytes (noffH.code.inFileAddr.toNat + a) else 0#8

theorem Program.LoadedFrom.imagePage_eq {executable : File} {noffH : NoffHeader}
    (origin : loaded.LoadedFrom bigEndian executable noffH) (nonneg : 0 ≤ noffH.codeDataSize.toInt)
    (v : Nat) (i : Fin pageSize) :
    imagePage executable loaded v i = initialByte executable noffH (v * pageSize + i) := by
  have size := toInt_of_nonneg nonneg
  have start := toInt_of_nonneg origin.seeks
  rw [origin.codeDataFileAddr] at start
  simp only [imagePage, pageOf, swapImage, initialByte, origin.codeDataSize,
    origin.codeDataFileAddr, size, start, Int.toNat_natCast, Int.ofNat_lt]

theorem Retains.before {d : DemandCell Page} (retains : Retains tracked op s s')
    (stays : ¬ op.replaces p) (unchanged : ¬ op.changes p v) (live : program s' p = some loaded)
    (followed : tracked.has loaded v) (after : cell s' p v = some d) :
    ∃ c, cell s p v = some c ∧ d.content = c.content ∧ d.dirty = c.dirty := by
  have earlier : program s p = some loaded := retains.programs p stays ▸ live
  obtain ⟨c, here⟩ := cell_exists earlier (cell_below live after)
  obtain ⟨d', there, same⟩ := retains.pages p loaded v earlier followed unchanged c here
  cases there.symm.trans after
  exact ⟨c, here, same⟩

/-! ## Assembling the state after a step -/

theorem Images.ok (images : Images tracked s) {c : DemandCell Page}
    (live : program s p = some loaded) (followed : tracked.has loaded v)
    (here : cell s p v = some c) :
    ∃ executable, s.files loaded.execfilename = some executable ∧
      c.Ok (imagePage executable loaded v) (loaded.codeDataEnd ≤ v * pageSize) := by
  obtain ⟨executable, c', opened, here', ok⟩ :=
    images p loaded v live (cell_below live here) followed
  cases here'.symm.trans here
  exact ⟨executable, opened, ok⟩

/-- The cell that a page fault loads is in order again and has the same content. -/
theorem FaultedCell.ok {codeDataEnd : Nat} {c d : DemandCell Page} {image : Page}
    (faulted : FaultedCell codeDataEnd virtAddr c d)
    (ok : c.Ok image (codeDataEnd ≤ virtAddr.toNat / pageSize * pageSize))
    (absent : c.resident = false)
    (zeros : codeDataEnd ≤ virtAddr.toNat / pageSize * pageSize → image = fun _ => 0#8) (allowed :
      codeDataEnd ≤ virtAddr.toNat → c.zeroFilled = false → codeDataEnd ≤ virtAddr.toNat / pageSize
      * pageSize) :
    d.Ok image (codeDataEnd ≤ virtAddr.toNat / pageSize * pageSize) ∧ d.content = c.content ∧
      d.dirty = c.dirty := by
  cases faulted with
  | zeroed beyond notZeroed =>
    obtain ⟨result, content⟩ := ok.zeroFill (allowed beyond notZeroed) notZeroed zeros
    exact ⟨result, content, rfl⟩
  | filled loaded =>
    -- a page that starts past the end has its fault past the end
    have pastLoaded : codeDataEnd ≤ virtAddr.toNat / pageSize * pageSize → c.zeroFilled = true := by
      intro past
      have start : virtAddr.toNat / pageSize * pageSize ≤ virtAddr.toNat :=
        Nat.div_mul_le_self _ _
      exact loaded (by omega)
    obtain ⟨result, content⟩ := ok.fill absent pastLoaded
    exact ⟨result, content, rfl⟩

theorem start_keeps_executable (wf : WellFormed s) (kept : ExecutablesKept s s')
    (run : startProcess filename s = .ok (some pid, s')) :
    s'.files filename = s.files filename := by
  obtain ⟨space, files, -, -, constructed, rfl⟩ := startProcess_inv wf.pidBits run
  obtain ⟨executable, noffH, -, -, rfl, -⟩ := construct_eq_ok.mp constructed
  exact kept pid (freshSpace filename noffH).program (by simp [program])

theorem fork_keeps_executable {pid childPID : Nat} {junk : Nat → TranslationEntry}
    (wf : WellFormed s) (kept : ExecutablesKept s s')
    (run : forkSystemcall pid junk s = .ok (some childPID, s')) :
    ∀ loaded, program s pid = some loaded →
      s'.files loaded.execfilename = s.files loaded.execfilename := by
  intro loaded parent
  obtain ⟨space, m, files, -, -, found, -, -, rfl⟩ := forkSystemcall_inv wf.pidBits run
  obtain ⟨space', found', rfl⟩ := program_eq_some.mp parent
  cases found.symm.trans found'
  exact kept childPID space.program (by simp [program, AddrSpace.forkChild, AddrSpace.program])

theorem exec_keeps_executable {junk : Nat → Bool} (kept : ExecutablesKept s s')
    (run : replaceMemory pid filename junk s = .ok s') :
    s'.files filename = s.files filename := by
  obtain ⟨space, executable, noffH, files, t, -, -, -, -, -, rfl⟩ := replaceMemory_inv run
  exact kept pid (space.replaced filename noffH junk).program (by simp [program])

theorem ne_of_live (live : program s p = some loaded) (absent : program s q = none) : p ≠ q := by
  intro same
  rw [same, absent] at live
  cases live

/-! ## One page in one step -/

section

variable {executable : File} {c d : DemandCell Page}

/-- A page while some page is loaded. -/
theorem pageFault_page (sound : Sound s) (faults : PageFaults s pid virtAddr)
    (run : pageIn pid virtAddr s = .ok s') (live : program s p = some loaded)
    (atZero : loaded.codeDataVirtAddr = 0#32) (here : cell s p v = some c)
    (ok : c.Ok (imagePage executable loaded v) (loaded.codeDataEnd ≤ v * pageSize))
    (allowed : p = pid → v = virtAddr.toNat / pageSize → loaded.codeDataEnd ≤ virtAddr.toNat →
      c.zeroFilled = false → loaded.codeDataEnd ≤ v * pageSize) :
    ∃ d, cell s' p v = some d ∧
      d.Ok (imagePage executable loaded v) (loaded.codeDataEnd ≤ v * pageSize) ∧
      d.content = c.content ∧ d.dirty = c.dirty := by
  obtain ⟨-, others, loaded₀, c₀, d₀, live₀, before, absent, after, faulted⟩ :=
    pageFault_cells sound faults run
  by_cases same : p = pid ∧ v = virtAddr.toNat / pageSize
  · obtain ⟨rfl, rfl⟩ := same
    cases live₀.symm.trans live
    cases before.symm.trans here
    exact ⟨d₀, after, faulted.ok ok absent (imagePage_past atZero) (allowed rfl rfl)⟩
  · obtain ⟨d, there, keptCell⟩ := others same here
    obtain ⟨result, content⟩ := ok.keptOrEvicted keptCell
    exact ⟨d, there, result, content, keptCell.dirty⟩

variable (sound : Sound s) (kept : ExecutablesKept s s') (step : Step s op s')

include sound kept step

theorem Step.undisturbed (replaced : op.replaces q) (stays : ¬ op.replaces p) :
    Undisturbed s s' p := by
  have wf := sound.toWellFormed
  cases step with
  | start run => exact (start_cells wf run (start_keeps_executable wf kept run)).1 p stays
  | fork junk run => exact (fork_cells wf run (fork_keeps_executable wf kept run)).1 p stays
  | terminate run => exact (terminate_cells run).1 p stays
  | exec junk run => exact (exec_cells run (exec_keeps_executable kept run)).1 p stays
  | load | store | pageFault | readOnlyFault => exact replaced.elim

theorem Step.programs (stays : ¬ op.replaces p) : program s' p = program s p := by
  have undisturbed := fun q replaced => step.undisturbed sound kept (q := q) replaced stays
  cases step with
  | load run => exact (load_cells run).1 p
  | store run => exact (store_cells sound run).1 p
  | pageFault faults run => exact (pageFault_cells sound faults run).1 p
  | readOnlyFault faults run => exact (readOnlyFault_cells sound faults run).1 p
  | start | fork | terminate | exec => exact (undisturbed _ rfl).program

/-- A live process is replaced only by steps that change all its pages. -/
theorem Step.stays (live : program s p = some loaded) (unchanged : ¬ op.changes p v) :
    ¬ op.replaces p := by
  cases step with
  | start run =>
    exact ne_of_live live (start_cells sound.toWellFormed run
      (start_keeps_executable sound.toWellFormed kept run)).2.1
  | fork junk run =>
    exact ne_of_live live (fork_cells sound.toWellFormed run
      (fork_keeps_executable sound.toWellFormed kept run)).2.1
  | terminate | exec => exact unchanged
  | load | store | pageFault | readOnlyFault => exact id

/-- A page that is neither replaced nor changed is in order again and has its content. -/
theorem Step.page (live : program s p = some loaded) (atZero : loaded.codeDataVirtAddr = 0#32)
    (here : cell s p v = some c) (unchanged : ¬ op.changes p v)
    (ok : c.Ok (imagePage executable loaded v) (loaded.codeDataEnd ≤ v * pageSize))
    (allowed : ∀ virtAddr, op = .pageFault p virtAddr → v = virtAddr.toNat / pageSize →
      loaded.codeDataEnd ≤ virtAddr.toNat → c.zeroFilled = false →
      loaded.codeDataEnd ≤ v * pageSize) :
    ∃ d, cell s' p v = some d ∧
      d.Ok (imagePage executable loaded v) (loaded.codeDataEnd ≤ v * pageSize) ∧
      d.content = c.content ∧ d.dirty = c.dirty := by
  have undisturbed := fun q replaced =>
    step.undisturbed sound kept (q := q) replaced (step.stays sound kept live unchanged)
  cases step with
  | load run => exact ⟨c, ((load_cells run).2 p v).trans here, ok, rfl, rfl⟩
  | store run => exact ⟨c, (store_cells sound run).2.1 unchanged here, ok, rfl, rfl⟩
  | @pageFault _ pid virtAddr faults run =>
    exact pageFault_page sound faults run live atZero here ok fun same => allowed virtAddr (same ▸ rfl)
  | readOnlyFault faults run =>
    obtain ⟨d, there, keptCell⟩ := (readOnlyFault_cells sound faults run).2 here
    obtain ⟨result, content⟩ := ok.keptOrEvicted keptCell
    exact ⟨d, there, result, content, keptCell.dirty⟩
  | start | fork | terminate | exec =>
    exact ⟨c, ((undisturbed _ rfl).cells v).trans here, ok, rfl, rfl⟩

/-- A page of a process that is replaced starts from the image, or branches off the page of its
parent. -/
theorem Step.replaced (replaced : op.replaces p) (live : program s' p = some loaded)
    (after : cell s' p v = some d) :
    ∃ executable, s.files loaded.execfilename = some executable ∧
      ((∃ zeroFilled, d = .fresh (imagePage executable loaded v) zeroFilled) ∨
        ∃ parent c, op = .fork parent p ∧ program s parent = some loaded ∧
          cell s parent v = some c ∧ d = c.branch (imagePage executable loaded v)) := by
  have below := cell_below live after
  cases step with
  | start run =>
    obtain rfl := replaced
    obtain ⟨-, -, executable, noffH, opened, -, live', cells⟩ :=
      start_cells sound.toWellFormed run (start_keeps_executable sound.toWellFormed kept run)
    obtain rfl := Option.some.inj (live'.symm.trans live)
    exact ⟨executable, opened, .inl ⟨_, Option.some.inj (after.symm.trans (cells v below))⟩⟩
  | @fork _ parent childPID junk run =>
    obtain rfl := replaced
    obtain ⟨-, -, loaded', executable, before, opened, child, cells⟩ :=
      fork_cells sound.toWellFormed run (fork_keeps_executable sound.toWellFormed kept run)
    cases child.symm.trans live
    obtain ⟨c, here, there⟩ := cells v below
    exact ⟨executable, opened, .inr ⟨parent, c, rfl, before, here,
      Option.some.inj (after.symm.trans there)⟩⟩
  | terminate run =>
    obtain rfl := replaced
    rw [(terminate_cells run).2] at live
    cases live
  | exec junk run =>
    obtain rfl := replaced
    obtain ⟨-, space, executable, noffH, -, opened, -, live', cells⟩ :=
      exec_cells run (exec_keeps_executable kept run)
    cases live'.symm.trans live
    exact ⟨executable, opened, .inl ⟨_, Option.some.inj (after.symm.trans (cells v below))⟩⟩
  | load | store | pageFault | readOnlyFault => exact replaced.elim

end

/-! ## Every step -/

section

variable (sound : Sound s)

include sound

theorem Step.images (images : Images tracked s) (kept : ExecutablesKept s s')
    (allowed : ZeroesPastEnd tracked s op) (step : Step s op s') :
    Images tracked s' ∧ Retains tracked op s s' := by
  have page : ∀ {p loaded v c}, program s p = some loaded → tracked.has loaded v →
      cell s p v = some c → ¬ op.changes p v → ∃ executable d,
        s.files loaded.execfilename = some executable ∧ cell s' p v = some d ∧
        d.Ok (imagePage executable loaded v) (loaded.codeDataEnd ≤ v * pageSize) ∧
        d.content = c.content ∧ d.dirty = c.dirty := by
    intro p loaded v c live followed here unchanged
    obtain ⟨executable, opened, ok⟩ := images.ok live followed here
    obtain ⟨d, there, result⟩ := step.page sound kept live (tracked.atZero followed) here unchanged ok
      fun virtAddr isFault isPage beyond unzeroed => by
        subst isFault isPage
        exact allowed loaded c live followed here beyond unzeroed
    exact ⟨executable, d, opened, there, result⟩
  refine ⟨fun p loaded v live below followed => ?_, fun p stays => step.programs sound kept stays,
    fun p loaded v live followed unchanged c here => ?_⟩
  · obtain ⟨d, after⟩ := cell_exists live below
    by_cases replaced : op.replaces p
    · obtain ⟨executable, opened, ⟨zeroFilled, rfl⟩ | ⟨parent, c, rfl, before, here, rfl⟩⟩ :=
        step.replaced sound kept replaced live after
      · exact ⟨executable, _, (kept p loaded live).trans opened, after, .fresh _ _ _⟩
      · obtain ⟨executable', opened', ok⟩ := images.ok before followed here
        cases opened.symm.trans opened'
        exact ⟨executable, _, (kept p loaded live).trans opened, after, ok.branch⟩
    · have before := step.programs sound kept replaced ▸ live
      obtain ⟨c, here⟩ := cell_exists before below
      by_cases changed : op.changes p v
      · cases step with
        | store run =>
          obtain ⟨rfl, rfl⟩ := changed
          obtain ⟨-, -, bytes, c₀, -, -, here₀, resident, there⟩ := store_cells sound run
          obtain ⟨executable, opened, ok⟩ := images.ok before followed here₀
          exact ⟨executable, _, (kept p loaded live).trans opened, there, ok.write resident _⟩
        | terminate | exec => exact absurd changed replaced
        | load | start | pageFault | readOnlyFault | fork => exact changed.elim
      · obtain ⟨executable, d, opened, there, ok, -⟩ := page before followed here changed
        exact ⟨executable, d, (kept p loaded live).trans opened, there, ok⟩
  · obtain ⟨-, d, -, there, -, same⟩ := page live followed here unchanged
    exact ⟨d, there, same⟩

/-! ## Where programs come from -/

def Op.loads : Op → Option FileName
  | .start filename _ => some filename
  | .exec _ filename => some filename
  | _ => none

/-- A program that is live after a step was live before it, or has just been loaded. -/
theorem Step.program_origin (step : Step s op s') (live : program s' p = some loaded) :
    (∃ q, program s q = some loaded) ∨
      ∃ executable noffH, op.loads = some loaded.execfilename ∧
        s.files loaded.execfilename = some executable ∧
        loaded.LoadedFrom s.machine.bigEndian executable noffH := by
  have same : ∀ programs : (∀ q, program s' q = program s q), ∃ q, program s q = some loaded :=
    fun programs => ⟨p, programs p ▸ live⟩
  cases step with
  | @start _ filename pid run =>
    obtain ⟨space, files, -, -, constructed, rfl⟩ := startProcess_inv sound.pidBits run
    obtain ⟨executable, noffH, opened, header, rfl, allocated⟩ := construct_eq_ok.mp constructed
    obtain ⟨-, -, -, seeks, sized, -⟩ := allocateSwapFile_inv allocated
    by_cases started : p = pid
    · subst started
      obtain rfl : (freshSpace filename noffH).program = loaded := by simpa [program] using live
      exact Or.inr ⟨executable, noffH, rfl, opened, header, rfl, rfl, rfl, seeks, sized⟩
    · exact Or.inl ⟨p, by simpa [program, started] using live⟩
  | load run => exact Or.inl (same (load_cells run).1)
  | store run => exact Or.inl (same (store_cells sound run).1)
  | pageFault faults run => exact Or.inl (same (pageFault_cells sound faults run).1)
  | readOnlyFault faults run => exact Or.inl (same (readOnlyFault_cells sound faults run).1)
  | @fork _ pid childPID junk run =>
    obtain ⟨space, m, files, -, -, found, -, -, rfl⟩ := forkSystemcall_inv sound.pidBits run
    have parent : program s pid = some space.program := program_eq_some.mpr ⟨space, found, rfl⟩
    left
    by_cases forked : p = childPID
    · subst forked
      obtain rfl : (space.forkChild junk).program = loaded := by simpa [program] using live
      exact ⟨pid, parent⟩
    · by_cases parentToo : p = pid
      · subst parentToo
        obtain rfl : space.forkParent.program = loaded := by simpa [program, forked] using live
        exact ⟨p, parent⟩
      · exact ⟨p, by simpa [program, forked, parentToo] using live⟩
  | @terminate _ pid run =>
    obtain ⟨others, gone⟩ := terminate_cells run
    by_cases leaving : p = pid
    · rw [leaving, gone] at live
      cases live
    · exact Or.inl ⟨p, (others p leaving).program ▸ live⟩
  | @exec _ pid filename junk run =>
    obtain ⟨space, executable, noffH, files, t, -, opened, header, allocated, released, rfl⟩ :=
      replaceMemory_inv run
    obtain ⟨-, -, -, seeks, sized, -⟩ := allocateSwapFile_inv allocated
    obtain ⟨undisturbed, -⟩ := releaseMemory_undisturbed released
    by_cases replaced : p = pid
    · subst replaced
      obtain rfl : (space.replaced filename noffH junk).program = loaded := by
        simpa [program] using live
      exact Or.inr ⟨executable, noffH, rfl, opened, header, rfl, rfl, rfl, seeks, sized⟩
    · left
      refine ⟨p, ?_⟩
      rw [← live]
      exact ((undisturbed p).program.symm.trans (program_congr (if_neg replaced)).symm)

/-! ## Runs that leave executables alone -/

structure KeepingStep (s : Kernel) (op : Op) (s' : Kernel) : Prop where
  step : Step s op s'
  kept : ExecutablesKept s s'

def Installed (s : Kernel) : Prop :=
  ∀ p loaded, program s p = some loaded → ∃ executable noffH,
    s.files loaded.execfilename = some executable ∧
    loaded.LoadedFrom s.machine.bigEndian executable noffH

theorem Installed.step (installed : Installed s) (taken : KeepingStep s op s') :
    Installed s' := by
  intro p loaded live
  have order := (taken.step.sameHost sound.toWellFormed).bigEndian
  have kept := taken.kept p loaded live
  rw [order, kept]
  obtain ⟨q, before⟩ | ⟨executable, noffH, -, opened, origin⟩ :=
    taken.step.program_origin sound live
  · exact installed q loaded before
  · exact ⟨executable, noffH, opened, origin⟩

def Op.LoadsPath (op : Op) : Prop := ∀ filename, op.loads = some filename → ∃ name,
    filename = .path name

instance (op : Op) : Decidable op.LoadsPath :=
  match loads : op.loads with
  | none => isTrue fun filename same => by rw [loads] at same; cases same
  | some (.path name) => isTrue fun filename same =>
      ⟨name, Option.some.inj (same.symm.trans loads)⟩
  | some (.swap pid) => isFalse fun path => by
      obtain ⟨name, same⟩ := path _ loads
      cases same

def FromPaths (s : Kernel) : Prop :=
  ∀ p loaded, program s p = some loaded → ∃ name, loaded.execfilename = .path name

theorem FromPaths.step (paths : FromPaths s)
    (loads : op.LoadsPath) (step : Step s op s') : FromPaths s' := by
  intro p loaded live
  obtain ⟨q, before⟩ | ⟨executable, noffH, fromFile, -⟩ := step.program_origin sound live
  · exact paths q loaded before
  · exact loads _ fromFile

end

/-- Programs that are loaded from files other than swap files stay as they are. -/
theorem keepingRun_of_paths {junk : Nat → BitVec 32} {files : Files} {history : List (Kernel × Op)}
    (run : Runs.Run Step (boot bigEndian junk files) history s)
    (loads : Runs.Guarded (fun _ op => op.LoadsPath) history) :
    Runs.Run KeepingStep (boot bigEndian junk files) history s ∧ FromPaths s := by
  induction run with
  | start =>
    refine ⟨.start, fun p loaded live => ?_⟩
    simp [program, boot] at live
  | next earlier taken ih =>
    obtain ⟨run, paths⟩ := ih loads.tail
    have sound := reachable_sound earlier
    have pathsAfter := paths.step sound loads.head taken
    refine ⟨run.next ⟨taken, fun p loaded live => ?_⟩, pathsAfter⟩
    obtain ⟨name, isPath⟩ := pathsAfter p loaded live
    rw [isPath]
    exact (taken.sameHost sound.toWellFormed).paths name

/-- A run that loads no swap file is found by computing it. -/
theorem computed_keepingRun {junk : Nat → BitVec 32} {files : Files}
    (check : List (Kernel × Op) → Kernel → Prop) [∀ history s, Decidable (check history s)]
    {P : List (Kernel × Op) → Kernel → Prop} (labels : List Op) (loads : ∀ op ∈ labels, op.LoadsPath)
    (computed : (Runs.execute perform labels [] (boot bigEndian junk files)).any
      (fun r => decide (check r.1 r.2)) = true)
    (shows : ∀ history s, Runs.Run KeepingStep (boot bigEndian junk files) history s →
      Runs.Run Step (boot bigEndian junk files) history s → history.map Prod.snd = labels.reverse →
      check history s → P history s) :
    ∃ history s, Runs.Run KeepingStep (boot bigEndian junk files) history s ∧ P history s := by
  obtain ⟨history, s, run, ops, checked⟩ := Runs.computed_run perform_step check labels computed
    fun _ _ _ ops checked => And.intro ops checked
  obtain ⟨keeping, -⟩ := keepingRun_of_paths run fun taken member => loads taken.2 (by
    rw [← List.mem_reverse, ← ops]
    exact List.mem_map_of_mem member)
  exact ⟨history, s, keeping, shows history s keeping run ops checked⟩

end Nachos
