import Nachos.Lib.Sharing
import Nachos.Verified.Inversion

/-!
# Page tables as a sharing of frames

`sharing s` reads the page tables, the owner matrix and the frame bitmap of a kernel
state as a `Sharing`: pages of live processes are the slots, frames are held through
`physicalPage`.  Each routine of the memory manager is shown to perform an operation
of the abstract sharing, so that the invariants proved there carry over.
-/

namespace Nachos

open Loops

def sharing (s : Kernel) : Sharing Nat Nat Nat where
  hold p v f := ∃ space, s.allPCB p = some space ∧ v < space.numPages ∧
    (space.pageTable v).physicalPage = (f : Int)
  readOnly p v := ∃ space, s.allPCB p = some space ∧ v < space.numPages ∧
    (space.pageTable v).readOnly = true
  owner f p := p < pidMapSize ∧ s.memoryMgr.framePID f p = true
  used f := f < numPhysPages ∧ s.memoryMgr.memoryMap.bit f = true

def EntryOk (entry : TranslationEntry) : Prop :=
  (entry.valid = true ∧ ∃ f < numPhysPages, entry.physicalPage = (f : Int)) ∨
    (entry.valid = false ∧ entry.physicalPage = -1)

/-- The shape of the state: entries of live processes are sound, the bitmaps have
their sizes, and the live processes are those with their pid set. -/
structure WellFormed (s : Kernel) : Prop where
  entries : ∀ {pid space}, s.allPCB pid = some space → ∀ v < space.numPages,
    EntryOk (space.pageTable v)
  memoryBits : s.memoryMgr.memoryMap.numBits = numPhysPages
  pidBits : s.pidMap.numBits = pidMapSize
  live : ∀ pid, (∃ space, s.allPCB pid = some space) ↔ pid < pidMapSize ∧ s.pidMap.bit pid = true

structure Sound (s : Kernel) : Prop extends WellFormed s where
  coherent : (sharing s).Coherent

variable {entry : TranslationEntry} {s s' : Kernel} {pid vpn f : Nat} {space : AddrSpace}

theorem EntryOk.evicted : EntryOk entry.evicted :=
  Or.inr ⟨rfl, rfl⟩

/-- Replacing the entries of live processes by sound ones keeps the state well
formed; nothing else of it matters here. -/
theorem WellFormed.update (wf : WellFormed s) (entries : ∀ {pid space'}, s'.allPCB pid = some space'
      → ∀ v < space'.numPages, EntryOk (space'.pageTable v))
    (memoryBits : s'.memoryMgr.memoryMap.numBits = s.memoryMgr.memoryMap.numBits)
    (pidMap : s'.pidMap = s.pidMap)
    (live : ∀ pid, (∃ space, s'.allPCB pid = some space) ↔ ∃ space, s.allPCB pid = some space) :
    WellFormed s' where
  entries := entries
  memoryBits := memoryBits.trans wf.memoryBits
  pidBits := by rw [pidMap]; exact wf.pidBits
  live pid := by rw [live, pidMap]; exact wf.live pid

theorem WellFormed.setSpace {space' : AddrSpace} (wf : WellFormed s)
    (found : s.allPCB pid = some space)
    (ok : ∀ v < space'.numPages, EntryOk (space'.pageTable v))
    (tables : s'.allPCB = (s.setSpace pid (some space')).allPCB)
    (memoryBits : s'.memoryMgr.memoryMap.numBits = s.memoryMgr.memoryMap.numBits)
    (pidMap : s'.pidMap = s.pidMap) : WellFormed s' := by
  refine wf.update ?_ memoryBits pidMap ?_
  · intro q other found' v bound
    rw [tables, Kernel.setSpace_allPCB] at found'
    split at found'
    next =>
      cases found'
      exact ok v bound
    next => exact wf.entries found' v bound
  · intro q
    rw [tables, Kernel.setSpace_allPCB]
    split
    next same => subst same; simp [found]
    next => rfl

theorem WellFormed.setEntry (wf : WellFormed s) (found : s.allPCB pid = some space)
    (ok : EntryOk entry)
    (tables : s'.allPCB = (s.setSpace pid (some (space.setEntry vpn entry))).allPCB)
    (memoryBits : s'.memoryMgr.memoryMap.numBits = s.memoryMgr.memoryMap.numBits)
    (pidMap : s'.pidMap = s.pidMap) : WellFormed s' := by
  refine wf.setSpace found (fun v bound => ?_) tables memoryBits pidMap
  rw [AddrSpace.setEntry_pageTable]
  split
  · exact ok
  · exact wf.entries found v bound

/-! ## Changing one entry, in the abstract -/

structure EntryReplaced (s s' : Kernel) (pid vpn : Nat) (space : AddrSpace)
    (entry : TranslationEntry) : Prop where
  found : s.allPCB pid = some space
  bound : vpn < space.numPages
  tables : s'.allPCB = (s.setSpace pid (some (space.setEntry vpn entry))).allPCB

namespace EntryReplaced

variable {s s' : Kernel} {pid vpn : Nat} {space : AddrSpace} {entry : TranslationEntry}

section

variable (replaced : EntryReplaced s s' pid vpn space entry)

include replaced

theorem entry_iff (R : TranslationEntry → Prop) (q w : Nat) :
    (∃ space, s'.allPCB q = some space ∧ w < space.numPages ∧ R (space.pageTable w)) ↔
      (q = pid ∧ w = vpn ∧ R entry) ∨ (¬ (q = pid ∧ w = vpn) ∧
        ∃ space, s.allPCB q = some space ∧ w < space.numPages ∧ R (space.pageTable w)) := by
  have found := replaced.found
  have bound := replaced.bound
  simp only [replaced.tables, Kernel.setSpace_allPCB]
  by_cases party : q = pid
  · subst party
    by_cases slot : w = vpn
    · subst slot
      simp [bound]
    · simp [slot, found]
  · simp [party]

theorem hold_iff (q w g : Nat) :
    (sharing s').hold q w g ↔
      (q = pid ∧ w = vpn ∧ entry.physicalPage = (g : Int)) ∨
        (¬ (q = pid ∧ w = vpn) ∧ (sharing s).hold q w g) :=
  replaced.entry_iff (·.physicalPage = (g : Int)) q w

theorem readOnly_iff (q w : Nat) :
    (sharing s').readOnly q w ↔
      (q = pid ∧ w = vpn ∧ entry.readOnly = true) ∨
        (¬ (q = pid ∧ w = vpn) ∧ (sharing s).readOnly q w) :=
  replaced.entry_iff (·.readOnly = true) q w

end

end EntryReplaced

/-! ## Eviction -/

theorem EvictedOwner.sharing_eq (sound : Sound s)
    (evicted : EvictedOwner f pid s s') :
    WellFormed s' ∧ sharing s' = (sharing s).dropOwners f (· = pid) := by
  cases evicted with
  | skipped unowned =>
    refine ⟨sound.toWellFormed, (sound.coherent.dropOwners_of_unowned ?_).symm⟩
    simp [sharing, unowned]
  | @pagedOut space files owned found bound =>
    refine ⟨sound.setEntry found EntryOk.evicted rfl rfl rfl, ?_⟩
    have held : (sharing s).hold pid (space.findPage f) f :=
      ⟨space, found, bound, findPage_spec bound⟩
    apply sound.coherent.dropOwners_of_slot held
    · intro q w g
      refine (EntryReplaced.hold_iff ⟨found, bound, rfl⟩ q w g).trans ?_
      simp [TranslationEntry.evicted]
    · intro q w
      refine (EntryReplaced.readOnly_iff ⟨found, bound, rfl⟩ q w).trans ?_
      simp [TranslationEntry.evicted]
    · intro g q
      simp only [sharing, Kernel.setSpace_memoryMgr, MemoryMgr.setFramePID]
      split <;> simp_all
    · intro g
      rfl

variable {f : Nat} {t : Kernel} {virtAddr : BitVec 32}

theorem evictLoop_sharing (sound : Sound s)
    (run : forUpToM (evictOwner f) pidMapSize s = .ok t) :
    WellFormed t ∧ sharing t = (sharing s).dropOwners f fun _ => True := by
  have rounds : Sound t ∧ sharing t = (sharing s).dropOwners f (· < pidMapSize) := by
    apply forUpToM_invariant (fun n t => Sound t ∧
      sharing t = (sharing s).dropOwners f (· < n)) run
    · refine ⟨sound, ?_⟩
      simp only [Nat.not_lt_zero]
      exact ((sharing s).dropOwners_empty f).symm
    · rintro pid - t t' ⟨sound, dropped⟩ round
      obtain ⟨wf', dropped'⟩ := (evictOwner_inv round).sharing_eq sound
      refine ⟨⟨wf', dropped' ▸ sound.coherent.dropOwners _⟩, ?_⟩
      rw [dropped', dropped, Sharing.dropOwners_dropOwners]
      simp only [Nat.lt_succ_iff_lt_or_eq]
  refine ⟨rounds.1.toWellFormed, rounds.2.trans (sound.coherent.dropOwners_all ?_)⟩
  intro q owner
  exact owner.1

/-! ## Getting a frame -/

theorem sharing_stamp (live : pid < pidMapSize) (bound : f < numPhysPages) (t : Kernel)
    {m : MemoryMgr} (owners : m.framePID = t.memoryMgr.framePID)
    (used : ∀ g, m.memoryMap.bit g = true ↔ t.memoryMgr.memoryMap.bit g = true ∨ g = f) :
    sharing { t with memoryMgr := stampFrame m f pid } = (sharing t).take f pid := by
  apply Sharing.ext_of_iff
  · intro q w g
    rfl
  · intro q w
    rfl
  · intro g q
    simp only [sharing, Sharing.take, stampFrame, MemoryMgr.setFramePID, owners]
    split
    next here => simp [here.1, here.2, live]
    next other => tauto
  · intro g
    simp only [sharing, Sharing.take, stampFrame, MemoryMgr.setFramePID, used]
    constructor
    · tauto
    · rintro (⟨below, inUse⟩ | rfl)
      · exact ⟨below, Or.inl inUse⟩
      · exact ⟨bound, Or.inr rfl⟩

theorem GotPage.acquired {sharedPage : Int} (sound : Sound s)
    (live : pid < pidMapSize) (got : GotPage pid sharedPage s f t) :
    WellFormed t ∧ (sharing s).Acquired f pid (sharing t) := by
  have bound := got.bound
  cases got with
  | @evicted t isVictim full loop =>
    obtain ⟨wf', dropped⟩ := evictLoop_sharing sound loop
    refine ⟨wf'.update (fun found => wf'.entries found) rfl rfl fun _ => Iff.rfl, Or.inr ?_⟩
    have stillFull : t.memoryMgr.memoryMap.bit f = true := by
      have used : (sharing t).used f := dropped ▸ ⟨bound, full f bound⟩
      exact used.2
    rw [← dropped]
    apply sharing_stamp live bound t rfl
    intro g
    refine ⟨Or.inl, ?_⟩
    rintro (inUse | rfl)
    · exact inUse
    · exact stillFull
  | clear _ isClear =>
    refine ⟨sound.update (fun found => sound.entries found) rfl rfl fun _ => Iff.rfl, Or.inl ⟨?_, ?_⟩⟩
    · simp [sharing, isClear]
    · refine sharing_stamp live bound s (m := s.memoryMgr.markFrame f) rfl ?_
      intro g
      simp only [MemoryMgr.markFrame, BitMap.bit_markBit, Bool.or_eq_true, decide_eq_true_eq]
      exact or_comm

/-! ## Filling a page -/

theorem sharing_fillPage (page : Nat → Byte) (found : t.allPCB pid = some space)
    (inTable : vpn < space.numPages) (maps : entry.physicalPage = (f : Int))
    (writable : entry.readOnly = false) :
    sharing (t.fillPage pid space vpn f page entry) = (sharing t).assign pid vpn f := by
  apply Sharing.ext_of_iff
  · intro q w g
    refine (EntryReplaced.hold_iff ⟨found, inTable, rfl⟩ q w g).trans ?_
    simp only [maps, Nat.cast_inj, Sharing.assign]
    exact or_congr_left (and_congr_right fun _ => and_congr_right fun _ => eq_comm)
  · intro q w
    refine (EntryReplaced.readOnly_iff ⟨found, inTable, rfl⟩ q w).trans ?_
    simp only [writable, Sharing.assign, Bool.false_eq_true, and_false, false_or]
    exact and_comm
  · intro g q
    rfl
  · intro g
    rfl

theorem WellFormed.fillPage (wf : WellFormed t) (vpn : Nat) (page : Nat → Byte)
    (found : t.allPCB pid = some space) (ok : EntryOk entry) :
    WellFormed (t.fillPage pid space vpn f page entry) :=
  wf.setEntry found ok rfl rfl rfl

/-! ## Giving up a share -/

theorem AddrSpace.unprotect_numPages (space : AddrSpace) (f : Nat) :
    (space.unprotect f).numPages = space.numPages := by
  unfold AddrSpace.unprotect
  split <;> rfl

theorem AddrSpace.unprotect_pageTable (space : AddrSpace) (f v : Nat) :
    (space.unprotect f).pageTable v =
      if v = space.findPage f ∧ v < space.numPages then
        { space.pageTable v with readOnly := false }
      else space.pageTable v := by
  unfold AddrSpace.unprotect
  split
  next bound =>
    rw [AddrSpace.setEntry_pageTable]
    split
    next here => rw [if_pos ⟨here, here ▸ bound⟩, here]
    next other => rw [if_neg fun both => other both.1]
  next unbound =>
    rw [if_neg]
    rintro ⟨rfl, bound⟩
    exact unbound bound

/-- `UnsetShare` is the abstract `unshare`, when no other process maps the frame
twice. -/
theorem UnsharedPage.sharing_eq
    (once : ∀ {q w w'}, q ≠ pid → (sharing s).hold q w f → (sharing s).hold q w' f → w = w')
    (unshared : UnsharedPage f pid s s') : sharing s' = (sharing s).unshare f pid := by
  have owners : ∀ g q, (q < pidMapSize ∧
      (s.memoryMgr.setFramePID f pid false).framePID g q = true) ↔
      (sharing s).owner g q ∧ ¬ (g = f ∧ q = pid) := by
    intro g q
    simp only [MemoryMgr.setFramePID, sharing]
    split <;> simp_all
  have others : ∀ r, (r < pidMapSize ∧
      (s.memoryMgr.setFramePID f pid false).framePID f r = true) ↔
      (sharing s).owner f r ∧ r ≠ pid := by
    intro r
    rw [owners]
    simp
  cases unshared with
  | @sole q space below sole found =>
    have notSelf : q ≠ pid := by
      rintro rfl
      have owner := (sole q below).mpr rfl
      simp [MemoryMgr.setFramePID] at owner
    have soleOwner : ∀ r, ((sharing s).owner f r ∧ r ≠ pid) ↔ r = q := by
      intro r
      rw [← others]
      constructor
      · rintro ⟨bound, owner⟩
        exact (sole r bound).mp owner
      · rintro rfl
        exact ⟨below, (sole r below).mpr rfl⟩
    apply Sharing.ext_of_iff
    · intro r w g
      simp only [sharing, Kernel.setSpace_allPCB, Sharing.unshare]
      by_cases party : r = q
      · subst party
        simp only [if_pos, Option.some.injEq, exists_eq_left', AddrSpace.unprotect_numPages,
          AddrSpace.unprotect_pageTable, found]
        split <;> rfl
      · simp only [if_neg party]
    · intro r w
      simp only [Sharing.unshare, soleOwner]
      by_cases party : r = q
      · subst party
        simp only [iff_self, implies_true, and_true]
        simp only [sharing, Kernel.setSpace_allPCB, if_pos, Option.some.injEq, exists_eq_left',
          AddrSpace.unprotect_numPages, AddrSpace.unprotect_pageTable, found]
        by_cases here : w = space.findPage f ∧ w < space.numPages
        · obtain ⟨rfl, bound⟩ := here
          simp [bound, findPage_spec bound]
        · rw [if_neg here]
          refine ⟨fun protectedSlot => ⟨protectedSlot, ?_⟩, And.left⟩
          rintro ⟨bound, maps⟩
          have first := findPage_lt bound maps
          have same : w = space.findPage f :=
            once notSelf ⟨space, found, bound, maps⟩ ⟨space, found, first, findPage_spec first⟩
          exact here ⟨same, bound⟩
      · have notSole : ¬ ∀ x, x = q ↔ x = r := fun sole => party ((sole r).mpr rfl)
        simp only [notSole, and_false, not_false_eq_true, and_true, sharing,
          Kernel.setSpace_allPCB, if_neg party]
    · exact owners
    · intro g
      rfl
  | notSole notSole =>
    apply Sharing.ext_of_iff
    · intro r w g
      rfl
    · intro r w
      refine ⟨fun protectedSlot => ⟨protectedSlot, ?_⟩, And.left⟩
      rintro ⟨-, sole⟩
      have owner := (others r).mpr ((sole r).mpr rfl)
      refine notSole ⟨r, owner.1, fun i bound => ?_⟩
      rw [← sole i, ← others]
      exact ⟨fun entered => ⟨bound, entered⟩, And.right⟩
    · exact owners
    · intro g
      rfl

theorem UnsharedPage.wellFormed (wf : WellFormed s) (unshared : UnsharedPage f pid s s') :
    WellFormed s' := by
  cases unshared with
  | @sole q space below sole found =>
    refine wf.setSpace found (fun v bound => ?_) rfl rfl rfl
    rw [AddrSpace.unprotect_numPages] at bound
    rw [AddrSpace.unprotect_pageTable]
    split
    · exact wf.entries found v bound
    · exact wf.entries found v bound
  | notSole => exact wf.update (fun found => wf.entries found) rfl rfl fun _ => Iff.rfl

/-! ## Page faults -/

theorem WellFormed.live_lt (wf : WellFormed s) (found : s.allPCB pid = some space) :
    pid < pidMapSize :=
  ((wf.live pid).mp ⟨space, found⟩).1

theorem EntryOk.frame (ok : EntryOk entry) (valid : entry.valid = true) :
    ∃ f < numPhysPages, entry.physicalPage = (f : Int) := by
  rcases ok with ⟨-, mapped⟩ | ⟨invalid, -⟩
  · exact mapped
  · rw [valid] at invalid
    cases invalid

theorem EntryOk.resident (ok : EntryOk entry) (resident : entry.physicalPage ≠ -1) :
    ∃ f < numPhysPages, entry.physicalPage = (f : Int) := by
  rcases ok with ⟨-, mapped⟩ | ⟨-, absent⟩
  · exact mapped
  · exact absurd absent resident

theorem EntryOk.valid (ok : EntryOk entry) (maps : entry.physicalPage = (f : Int)) :
    entry.valid = true := by
  rcases ok with ⟨valid, -⟩ | ⟨-, absent⟩
  · exact valid
  · rw [absent] at maps
    omega

theorem EntryOk.copied (valid : entry.valid = true) (bound : f < numPhysPages) :
    EntryOk (entry.copied f) :=
  Or.inl ⟨valid, f, bound, rfl⟩

theorem PageFaults.not_hold (wf : WellFormed s) (faults : PageFaults s pid virtAddr) (g : Nat) :
    ¬ (sharing s).hold pid (virtAddr.toNat / pageSize) g := by
  obtain ⟨entry, ⟨space, found, bound, rfl⟩, invalid⟩ := faults
  rintro ⟨space', found', -, maps⟩
  cases found.symm.trans found'
  rw [(wf.entries found _ bound).valid maps] at invalid
  cases invalid

theorem pageFault_sharing (sound : Sound s)
    (faults : PageFaults s pid virtAddr) (run : pageIn pid virtAddr s = .ok s') :
    WellFormed s' ∧ ∃ f T, (sharing s).Acquired f pid T ∧
      sharing s' = T.assign pid (virtAddr.toNat / pageSize) f := by
  obtain ⟨_, ⟨_, found, -, -⟩, -⟩ := faults
  obtain ⟨f, t, space, page, zeroFilled, got, found', bound, -, rfl⟩ :=
    pageIn_inv sound.memoryBits run
  obtain ⟨wf', acquired⟩ := got.acquired sound (sound.live_lt found)
  refine ⟨wf'.fillPage _ _ found' (Or.inl ⟨rfl, f, got.bound, rfl⟩), f, sharing t, acquired, ?_⟩
  exact sharing_fillPage page found' bound rfl rfl

theorem GotPage.ne_shared {pid f g : Nat} (got : GotPage pid (g : Int) s f t)
    (used : (sharing s).used g) : f ≠ g := by
  rintro rfl
  cases got with
  | evicted isVictim => exact (victim_spec s.memoryMgr f).2 (by rw [← isVictim])
  | clear _ isClear =>
    rw [used.2] at isClear
    cases isClear

/-- A read-only fault acquires a frame for the page and gives up the share in the old
one. -/
theorem readOnlyFault_sharing (sound : Sound s)
    (faults : ReadOnlyFaults s pid virtAddr) (run : cow pid virtAddr s = .ok s') :
    WellFormed s' ∧ ∃ f T g, (sharing s).Acquired f pid T ∧ f ≠ g ∧
      (sharing s).hold pid (virtAddr.toNat / pageSize) g ∧
      (sharing s).readOnly pid (virtAddr.toNat / pageSize) ∧
      sharing s' = (T.assign pid (virtAddr.toNat / pageSize) f).unshare g pid := by
  have coherent := sound.coherent
  obtain ⟨_, ⟨space, found, bound, rfl⟩, valid, protectedPage⟩ := faults
  obtain ⟨space₁, f, t, space', oppn, found₁, bound₁, got, found', maps', -, unshared⟩ :=
    cow_inv sound.memoryBits run
  cases found.symm.trans found₁
  obtain ⟨g, gBound, maps⟩ := (sound.entries found _ bound).frame valid
  have held : (sharing s).hold pid (virtAddr.toNat / pageSize) g := ⟨space, found, bound, maps⟩
  rw [maps] at got
  have different := got.ne_shared (coherent.inUse held)
  obtain ⟨wf', acquired⟩ := got.acquired sound (sound.live_lt found)
  -- the page still holds its old frame after the new one was acquired
  obtain ⟨space₂, found₂, bound', maps₂⟩ :=
    (acquired.hold_iff coherent pid (virtAddr.toNat / pageSize) g).mpr ⟨held, different.symm⟩
  cases found'.symm.trans found₂
  obtain rfl : oppn = g := by
    rw [maps'] at maps₂
    exact_mod_cast maps₂
  have coherent' := coherent.acquire acquired
  have filled := sharing_fillPage (frame t.machine.mainMemory oppn) found' bound'
    ((space'.pageTable (virtAddr.toNat / pageSize)).copied_physicalPage f)
    ((space'.pageTable (virtAddr.toNat / pageSize)).copied_readOnly f)
  have coherentFilled := filled ▸
    coherent'.assign (acquired.unheld coherent) acquired.owner acquired.used
  have valid' := (wf'.entries found' _ bound').valid maps'
  refine ⟨unshared.wellFormed (wf'.fillPage _ _ found' (EntryOk.copied valid' got.bound)),
    f, sharing t, oppn, acquired, different, held, ⟨space, found, bound, protectedPage⟩, ?_⟩
  rw [unshared.sharing_eq fun _ left right => coherentFilled.once left right, filled]

/-! ## Accesses and new processes -/

theorem sharing_touched {writing : Bool} (found : s.allPCB pid = some space)
    (bound : vpn < space.numPages) (tables : s'.allPCB = (s.setSpace pid (some (space.setEntry vpn
      ((space.pageTable vpn).touched writing)))).allPCB) (manager : s'.memoryMgr = s.memoryMgr) :
    sharing s' = sharing s := by
  have replaced : EntryReplaced s s' pid vpn space _ := ⟨found, bound, tables⟩
  have keeps (R : TranslationEntry → Prop)
      (kept : R ((space.pageTable vpn).touched writing) ↔ R (space.pageTable vpn)) (q w : Nat) :
      (∃ space, s'.allPCB q = some space ∧ w < space.numPages ∧ R (space.pageTable w)) ↔
        ∃ space, s.allPCB q = some space ∧ w < space.numPages ∧ R (space.pageTable w) := by
    rw [replaced.entry_iff, kept]
    by_cases here : q = pid ∧ w = vpn
    · obtain ⟨rfl, rfl⟩ := here
      simp [found, bound]
    · simp only [here, not_false_eq_true, true_and]
      exact or_iff_right fun here' => here ⟨here'.1, here'.2.1⟩
  apply Sharing.ext_of_iff
  · exact fun q w g => keeps (·.physicalPage = (g : Int)) Iff.rfl q w
  · exact keeps (·.readOnly = true) Iff.rfl
  · simp only [sharing, manager, implies_true]
  · simp only [sharing, manager, implies_true]

theorem EntryOk.touched (ok : EntryOk entry) (writing : Bool) :
    EntryOk (entry.touched writing) := ok

theorem load_sharing {pid size : Nat} {addr value : BitVec 32} (wf : WellFormed s)
    (run : readMem pid addr size s = .ok (.done (value, s'))) :
    WellFormed s' ∧ sharing s' = sharing s := by
  obtain ⟨space, f, found, accessed, -, rfl⟩ := readMem_inv run
  exact ⟨wf.setEntry found ((wf.entries found _ accessed.inTable).touched _) rfl rfl rfl,
    sharing_touched found accessed.inTable rfl rfl⟩

theorem store_sharing {pid size : Nat} {addr value : BitVec 32} (wf : WellFormed s)
    (run : writeMem pid addr size value s = .ok (.done s')) :
    WellFormed s' ∧ sharing s' = sharing s := by
  obtain ⟨space, f, bytes, found, accessed, -, rfl⟩ := writeMem_inv run
  exact ⟨wf.setEntry found ((wf.entries found _ accessed.inTable).touched _) rfl rfl rfl,
    sharing_touched found accessed.inTable rfl rfl⟩

theorem WellFormed.free_pid (wf : WellFormed s) (free : s.pidMap.bit pid = false) :
    s.allPCB pid = none := by
  cases found : s.allPCB pid with
  | none => rfl
  | some space =>
    have set := ((wf.live pid).mp ⟨space, found⟩).2
    rw [free] at set
    cases set

theorem WellFormed.addProcess (wf : WellFormed s) (bound : pid < pidMapSize)
    (entries : ∀ v < space.numPages, EntryOk (space.pageTable v))
    (tables : s'.allPCB = (s.setSpace pid (some space)).allPCB)
    (memoryBits : s'.memoryMgr.memoryMap.numBits = s.memoryMgr.memoryMap.numBits)
    (pidMap : s'.pidMap = s.pidMap.markBit pid) : WellFormed s' where
  entries := by
    intro q space' found v below
    rw [tables, Kernel.setSpace_allPCB] at found
    split at found
    next => cases found; exact entries v below
    next => exact wf.entries found v below
  memoryBits := memoryBits.trans wf.memoryBits
  pidBits := by rw [pidMap, BitMap.markBit_numBits]; exact wf.pidBits
  live := by
    intro q
    rw [tables, pidMap, Kernel.setSpace_allPCB, BitMap.bit_markBit]
    split
    next here => subst here; simp [bound]
    next other => simpa [other] using wf.live q

theorem sharing_emptied (others : ∀ q, q ≠ pid → s'.allPCB q = s.allPCB q)
    (empty : ∀ space, s'.allPCB pid = some space → ∀ v < space.numPages,
      (space.pageTable v).physicalPage = -1 ∧ (space.pageTable v).readOnly = false)
    (manager : s'.memoryMgr = s.memoryMgr) : sharing s' = (sharing s).remove pid := by
  have entries (R : TranslationEntry → Prop)
      (unmapped : ∀ entry, entry.physicalPage = -1 → entry.readOnly = false → ¬ R entry) (q w : Nat) :
      (∃ space, s'.allPCB q = some space ∧ w < space.numPages ∧ R (space.pageTable w)) ↔
        (∃ space, s.allPCB q = some space ∧ w < space.numPages ∧ R (space.pageTable w)) ∧
          q ≠ pid := by
    by_cases here : q = pid
    · subst here
      refine iff_of_false ?_ fun left => left.2 rfl
      rintro ⟨space, found, bound, holds⟩
      obtain ⟨absent, writable⟩ := empty space found w bound
      exact unmapped _ absent writable holds
    · rw [others q here]
      exact (and_iff_left here).symm
  apply Sharing.ext_of_iff
  · intro q w g
    exact entries (·.physicalPage = (g : Int)) (fun _ absent _ holds => by omega) q w
  · exact entries (·.readOnly = true) fun _ _ writable holds => by simp [writable] at holds
  · simp only [sharing, manager, Sharing.remove, implies_true]
  · simp only [sharing, manager, Sharing.remove, implies_true]

theorem sharing_absent (absent : s.allPCB pid = none) : (sharing s).remove pid = sharing s :=
  (sharing_emptied (fun _ _ => rfl) (by simp [absent]) rfl).symm

theorem start_sharing {filename : FileName} (wf : WellFormed s)
    (run : startProcess filename s = .ok (some pid, s')) :
    WellFormed s' ∧ sharing s' = sharing s := by
  obtain ⟨space, files, bound, free, constructed, rfl⟩ := startProcess_inv wf.pidBits run
  obtain ⟨executable, noffH, -, -, rfl, -⟩ := construct_eq_ok.mp constructed
  have absent := wf.free_pid free
  refine ⟨wf.addProcess bound (fun v _ => Or.inr ⟨rfl, rfl⟩) rfl rfl rfl, ?_⟩
  refine .trans (sharing_emptied (fun q other => if_neg other) (fun space' found v _ => ?_) (by rfl))
    (sharing_absent absent)
  obtain rfl := Option.some.inj ((if_pos rfl).symm.trans found)
  exact ⟨rfl, rfl⟩

/-! ## Fork -/

theorem EntryOk.shared (ok : EntryOk entry) : EntryOk entry.shared := ok

theorem EntryOk.shared_readOnly (ok : EntryOk entry) :
    entry.shared.readOnly = true ↔
      entry.readOnly = true ∨ ∃ g : Nat, entry.physicalPage = (g : Int) := by
  have resident : entry.physicalPage ≠ -1 ↔ ∃ g : Nat, entry.physicalPage = (g : Int) := by
    rcases ok with ⟨-, f, -, maps⟩ | ⟨-, absent⟩
    · rw [maps]
      exact ⟨fun _ => ⟨f, rfl⟩, fun _ => by omega⟩
    · rw [absent]
      refine ⟨fun resident => absurd rfl resident, ?_⟩
      rintro ⟨g, maps⟩
      omega
  simp only [TranslationEntry.shared, Bool.or_eq_true, bne_iff_ne, resident]
  exact or_comm

theorem fork_sharing {pid childPID : Nat} {junk : Nat → TranslationEntry} (wf : WellFormed s)
    (run : forkSystemcall pid junk s = .ok (some childPID, s')) :
    WellFormed s' ∧ childPID ≠ pid ∧ (∀ w g, ¬ (sharing s).hold childPID w g) ∧
      sharing s' = (sharing s).adopt pid childPID := by
  obtain ⟨space, m, files, bound, free, found, shared, -, rfl⟩ :=
    forkSystemcall_inv wf.pidBits run
  have absent := wf.free_pid free
  have different : childPID ≠ pid := by
    rintro rfl
    rw [absent] at found
    cases found
  have entries : ∀ v < space.numPages, EntryOk (space.pageTable v).shared :=
    fun v below => (wf.entries found v below).shared
  have manager : m.memoryMap = s.memoryMgr.memoryMap := by rw [shared.others]
  have parentFormed : WellFormed
      ({ s with memoryMgr := m, files := files }.setSpace pid (some space.forkParent)) := by
    refine wf.setSpace found (fun v below => ?_) rfl (by simp [manager]) rfl
    simpa only [AddrSpace.forkParent, if_pos (show v < space.numPages from below)]
      using entries v below
  refine ⟨parentFormed.addProcess bound ?_ rfl rfl rfl, different, ?_, ?_⟩
  · intro v below
    simpa only [AddrSpace.forkChild, if_pos (show v < space.numPages from below)]
      using entries v below
  · rintro w g ⟨space', found', -⟩
    rw [absent] at found'
    cases found'
  · apply Sharing.ext_of_iff
    · intro q w g
      simp only [sharing, Kernel.setSpace_allPCB, Sharing.adopt]
      by_cases child : q = childPID
      · subst child
        simp only [if_pos, Option.some.injEq, exists_eq_left', found, true_and, ne_eq,
          not_true_eq_false, false_and, or_false, AddrSpace.forkChild]
        refine and_congr_right fun below => ?_
        rw [if_pos below]
        rfl
      · simp only [child, if_false, false_and, ne_eq, not_false_eq_true, true_and, false_or]
        by_cases parent : q = pid
        · subst parent
          simp only [if_pos, Option.some.injEq, exists_eq_left', found, AddrSpace.forkParent]
          refine and_congr_right fun below => ?_
          rw [if_pos below]
          rfl
        · simp only [if_neg parent]
    · intro q w
      simp only [sharing, Kernel.setSpace_allPCB, Sharing.adopt]
      by_cases child : q = childPID
      · subst child
        simp only [if_pos, Option.some.injEq, exists_eq_left', found, true_and, ne_eq,
          not_true_eq_false, false_and, or_false, AddrSpace.forkChild, exists_and_left,
          ← and_or_left]
        refine and_congr_right fun below => ?_
        rw [if_pos below]
        exact (wf.entries found w below).shared_readOnly
      · simp only [child, if_false, false_and, ne_eq, not_false_eq_true, true_and, false_or]
        by_cases parent : q = pid
        · subst parent
          simp only [if_pos, Option.some.injEq, exists_eq_left', found, AddrSpace.forkParent,
            true_and, exists_and_left, ← and_or_left]
          refine and_congr_right fun below => ?_
          rw [if_pos below]
          exact (wf.entries found w below).shared_readOnly
        · simp only [parent, if_false, false_and, or_false]
    · intro g q
      simp only [sharing, Kernel.setSpace_memoryMgr, Sharing.adopt, shared.owners, found,
        Option.some.injEq, exists_eq_left']
      constructor
      · rintro ⟨below, owner | held⟩
        · exact Or.inl ⟨below, owner⟩
        · exact Or.inr held
      · rintro (⟨below, owner⟩ | ⟨rfl, held⟩)
        · exact ⟨below, Or.inl owner⟩
        · exact ⟨bound, Or.inr ⟨rfl, held⟩⟩
    · intro g
      simp only [sharing, Kernel.setSpace_memoryMgr, Sharing.adopt, manager]

/-! ## Releasing memory -/

inductive RoundReleased (pid : Nat) (entry : TranslationEntry) (S : Sharing Nat Nat Nat) :
    Sharing Nat Nat Nat → Prop where
  | skipped : entry.physicalPage = -1 → RoundReleased pid entry S S
  | cleared {f : Nat} : entry.physicalPage = (f : Int) → entry.readOnly = false →
      RoundReleased pid entry S (S.free f)
  | unshared {f : Nat} : entry.physicalPage = (f : Int) → entry.readOnly = true →
      RoundReleased pid entry S (S.unshare f pid)

theorem sharing_clearBit (t : Kernel) (f : Nat) :
    sharing { t with memoryMgr := { t.memoryMgr with
      memoryMap := t.memoryMgr.memoryMap.clearBit f } } = (sharing t).free f := by
  apply Sharing.ext_of_iff
  · intro q w g
    rfl
  · intro q w
    rfl
  · intro g q
    rfl
  · intro g
    simp only [sharing, Sharing.free, BitMap.bit_clearBit, Bool.and_eq_true, Bool.not_eq_true',
      decide_eq_false_iff_not]
    tauto

theorem UnsharedPage.allPCB_self (unshared : UnsharedPage f pid s s') :
    s'.allPCB pid = s.allPCB pid := by
  cases unshared with
  | @sole q space below sole found =>
    rw [Kernel.setSpace_allPCB, if_neg]
    rintro rfl
    have owner := (sole pid below).mpr rfl
    simp [MemoryMgr.setFramePID] at owner
  | notSole => rfl

theorem ReleasedEntry.round {t t' : Kernel} (wf : WellFormed t)
    (coherent : ((sharing t).remove pid).Coherent) (released : ReleasedEntry pid entry t t') :
    WellFormed t' ∧ t'.allPCB pid = t.allPCB pid ∧
      RoundReleased pid entry ((sharing t).remove pid) ((sharing t').remove pid) := by
  cases released with
  | skipped absent => exact ⟨wf, rfl, .skipped absent⟩
  | cleared maps writable =>
    refine ⟨wf.update (fun found => wf.entries found) rfl rfl fun _ => Iff.rfl, rfl, ?_⟩
    rw [sharing_clearBit, Sharing.remove_free]
    exact .cleared maps writable
  | unshared maps bound protectedPage unshared =>
    refine ⟨unshared.wellFormed wf, unshared.allPCB_self, ?_⟩
    rw [unshared.sharing_eq fun other left right =>
      coherent.once ⟨left, other⟩ ⟨right, other⟩, Sharing.remove_unshare]
    exact .unshared maps protectedPage

theorem RoundReleased.hold_iff {S T : Sharing Nat Nat Nat} (round : RoundReleased pid entry S T)
    (q w g : Nat) : T.hold q w g ↔ S.hold q w g := by
  cases round with
  | skipped => rfl
  | cleared => rfl
  | unshared => rfl

/-- A round is safe when a frame it clears is held by nobody else. -/
theorem RoundReleased.coherent {S T : Sharing Nat Nat Nat} (round : RoundReleased pid entry S T)
    (coherent : S.Coherent) (gone : ∀ w g, ¬ S.hold pid w g)
    (unheld : ∀ f : Nat, entry.physicalPage = (f : Int) → entry.readOnly = false → S.Unheld f) :
    T.Coherent := by
  cases round with
  | skipped => exact coherent
  | cleared maps writable => exact coherent.free (unheld _ maps writable)
  | unshared => exact coherent.unshare fun w => gone w _

/-- The rule for `ReleaseMemory` of a process `pid` of `s`, which has left the table of
`t₀` or is about to: the sharing of the others stays coherent, and what every round
keeps holds at the end. -/
theorem releaseMemory_rounds {s t₀ t : Kernel} (P : Nat → Sharing Nat Nat Nat → Prop)
    (coherent : (sharing s).Coherent) (found : s.allPCB pid = some space) (wf : WellFormed t₀)
    (others : (sharing t₀).remove pid = (sharing s).remove pid)
    (run : releaseMemory pid space t₀ = .ok t) (base : P 0 ((sharing s).remove pid)) (step : ∀ i <
      space.numPages, ∀ S T, P i S → RoundReleased pid (space.pageTable i) S T → (∀ w g, ¬ S.hold
      pid w g) → P (i + 1) T) :
    WellFormed t ∧ t.allPCB pid = t₀.allPCB pid ∧ ((sharing t).remove pid).Coherent ∧
      P space.numPages ((sharing t).remove pid) := by
  have rounds : WellFormed t ∧ t.allPCB pid = t₀.allPCB pid ∧
      ((sharing t).remove pid).Coherent ∧ P space.numPages ((sharing t).remove pid) ∧
      ∀ q w g, ((sharing t).remove pid).hold q w g ↔ ((sharing s).remove pid).hold q w g := by
    apply forUpToM_invariant (fun n t => WellFormed t ∧ t.allPCB pid = t₀.allPCB pid ∧
      ((sharing t).remove pid).Coherent ∧ P n ((sharing t).remove pid) ∧
      ∀ q w g, ((sharing t).remove pid).hold q w g ↔ ((sharing s).remove pid).hold q w g) run
    · exact ⟨wf, rfl, others ▸ coherent.remove, others ▸ base, fun q w g => by rw [others]⟩
    · rintro i bound t t' ⟨wf, table, coherent', kept, held⟩ released
      obtain ⟨wf', table', round⟩ := (releaseEntry_inv released).round wf coherent'
      have gone : ∀ w g, ¬ ((sharing t).remove pid).hold pid w g := fun w g holds => holds.2 rfl
      refine ⟨wf', table'.trans table, ?_, step i bound _ _ kept round gone,
        fun q w g => (round.hold_iff q w g).trans (held q w g)⟩
      apply round.coherent coherent' gone
      intro f maps writable q w holds
      obtain ⟨other, apart⟩ := (held q w f).mp holds
      have mine : (sharing s).hold pid i f := ⟨space, found, bound, maps⟩
      have notProtected : ¬ (sharing s).readOnly pid i := by
        rintro ⟨space', found', -, protectedPage⟩
        cases found.symm.trans found'
        rw [writable] at protectedPage
        cases protectedPage
      exact apart (coherent.exclusive mine notProtected other).1
  exact ⟨rounds.1, rounds.2.1, rounds.2.2.1, rounds.2.2.2.1⟩

theorem WellFormed.removeProcess (wf : WellFormed s) (pid : Nat) :
    WellFormed ({ s with pidMap := s.pidMap.clearBit pid }.setSpace pid none) where
  entries := by
    intro q space found v below
    rw [Kernel.setSpace_allPCB] at found
    split at found
    next => cases found
    next => exact wf.entries found v below
  memoryBits := wf.memoryBits
  pidBits := wf.pidBits
  live := by
    intro q
    rw [Kernel.setSpace_allPCB, Kernel.setSpace_pidMap, BitMap.bit_clearBit]
    split
    next here => simp [here]
    next other => simpa [other] using wf.live q

inductive Emptied (pid : Nat) (s s' : Kernel) : Prop where
  | terminate : terminate pid s = .ok s' → Emptied pid s s'
  | exec {filename : FileName} {junk : Nat → Bool} :
      replaceMemory pid filename junk s = .ok s' → Emptied pid s s'

theorem Emptied.found (emptied : Emptied pid s s') : ∃ space, s.allPCB pid = some space := by
  cases emptied with
  | terminate run =>
    obtain ⟨space, found, -⟩ := terminate_inv run
    exact ⟨space, found⟩
  | exec run =>
    obtain ⟨space, _, _, _, _, found, -⟩ := replaceMemory_inv run
    exact ⟨space, found⟩

theorem Emptied.rounds (emptied : Emptied pid s s') (P : Nat → Sharing Nat Nat Nat → Prop)
    (sound : Sound s) (found : s.allPCB pid = some space) (base : P 0 ((sharing s).remove pid))
    (step : ∀ i < space.numPages, ∀ S T, P i S → RoundReleased pid (space.pageTable i) S T →
      (∀ w g, ¬ S.hold pid w g) → P (i + 1) T) :
    Sound s' ∧ P space.numPages (sharing s') := by
  cases emptied with
  | terminate run =>
    obtain ⟨space₁, found₁, released⟩ := terminate_inv run
    cases found.symm.trans found₁
    have removed : sharing ({ s with pidMap := s.pidMap.clearBit pid }.setSpace pid none) =
        (sharing s).remove pid :=
      sharing_emptied (fun q other => if_neg other) (by simp [Kernel.setSpace_allPCB]) rfl
    obtain ⟨wf', table, coherent', kept⟩ := releaseMemory_rounds P sound.coherent found
      (sound.removeProcess pid) (by rw [removed, Sharing.remove_remove]) released base step
    have gone := sharing_absent (table.trans (if_pos rfl))
    exact ⟨⟨wf', gone ▸ coherent'⟩, gone ▸ kept⟩
  | @exec filename junk run =>
    obtain ⟨space₁, executable, noffH, files, t, found₁, -, -, -, released, rfl⟩ :=
      replaceMemory_inv run
    cases found.symm.trans found₁
    have wfFiles : WellFormed { s with files := files } :=
      sound.update (fun found => sound.entries found) rfl rfl fun _ => Iff.rfl
    obtain ⟨wf', table, coherent', kept⟩ :=
      releaseMemory_rounds P sound.coherent found wfFiles rfl released base step
    -- the fresh table holds nothing
    have result : sharing (t.setSpace pid (some (space.replaced filename noffH junk))) =
        (sharing t).remove pid := by
      refine sharing_emptied (fun q other => if_neg other) (fun space' found' v _ => ?_) rfl
      cases (if_pos rfl).symm.trans found'
      exact ⟨rfl, rfl⟩
    refine ⟨⟨?_, result ▸ coherent'⟩, result ▸ kept⟩
    exact wf'.setSpace (table.trans found) (fun _ _ => Or.inr ⟨rfl, rfl⟩) rfl rfl rfl

/-! ## Every step -/

theorem Step.sound {op : Op} (step : Step s op s') (sound : Sound s) : Sound s' := by
  have wf := sound.toWellFormed
  have coherent := sound.coherent
  have emptied {pid : Nat} (emptied : Emptied pid s s') : Sound s' := by
    obtain ⟨space, found⟩ := emptied.found
    exact (emptied.rounds (fun _ _ => True) sound found trivial fun _ _ _ _ _ _ _ => trivial).1
  cases step with
  | start run =>
    obtain ⟨wf', same⟩ := start_sharing wf run
    exact ⟨wf', same ▸ coherent⟩
  | load run =>
    obtain ⟨wf', same⟩ := load_sharing wf run
    exact ⟨wf', same ▸ coherent⟩
  | store run =>
    obtain ⟨wf', same⟩ := store_sharing wf run
    exact ⟨wf', same ▸ coherent⟩
  | pageFault faults run =>
    obtain ⟨wf', f, T, acquired, result⟩ := pageFault_sharing sound faults run
    refine ⟨wf', result ▸ ?_⟩
    exact (coherent.acquire acquired).assign (acquired.unheld coherent) acquired.owner acquired.used
  | readOnlyFault faults run =>
    obtain ⟨wf', f, T, g, acquired, different, held, -, result⟩ :=
      readOnlyFault_sharing sound faults run
    refine ⟨wf', result ▸ ?_⟩
    have acquiredCoherent := coherent.acquire acquired
    apply (acquiredCoherent.assign (acquired.unheld coherent) acquired.owner acquired.used).unshare
    -- the page was the only one of the process that held the old frame
    rintro w (⟨-, -, same⟩ | ⟨other, held'⟩)
    · exact different same.symm
    · have stillHeld := (acquired.hold_iff coherent _ _ _).mpr ⟨held, different.symm⟩
      exact other ⟨rfl, acquiredCoherent.once held' stillHeld⟩
  | fork junk run =>
    obtain ⟨wf', different, -, result⟩ := fork_sharing wf run
    exact ⟨wf', result ▸ coherent.adopt different⟩
  | terminate run => exact emptied (.terminate run)
  | exec junk run => exact emptied (.exec run)

theorem boot_wellFormed (bigEndian : Bool) (junk : Nat → BitVec 32) (files : Files) :
    WellFormed (boot bigEndian junk files) where
  entries found := by cases found
  memoryBits := BitMap.new_numBits _ _
  pidBits := BitMap.new_numBits _ _
  live pid := by
    constructor
    · rintro ⟨space, found⟩
      cases found
    · rintro ⟨below, set⟩
      have isClear := BitMap.new_bit junk below
      simp only [boot] at set
      rw [isClear] at set
      cases set

theorem boot_not_hold {bigEndian : Bool} {junk : Nat → BitVec 32} {files : Files} (p v f : Nat) :
    ¬ (sharing (boot bigEndian junk files)).hold p v f := by
  rintro ⟨space, found, -⟩
  cases found

theorem boot_coherent (bigEndian : Bool) (junk : Nat → BitVec 32) (files : Files) :
    (sharing (boot bigEndian junk files)).Coherent where
  functional held := absurd held (boot_not_hold _ _ _)
  owned held := absurd held (boot_not_hold _ _ _)
  inUse held := absurd held (boot_not_hold _ _ _)
  once held := absurd held (boot_not_hold _ _ _)
  sharedReadOnly held := absurd held (boot_not_hold _ _ _)

theorem reachable_sound {bigEndian : Bool} {junk : Nat → BitVec 32} {files : Files}
    {history : List (Kernel × Op)} (run : Runs.Run Step (boot bigEndian junk files) history s) :
    Sound s :=
  run.always ⟨boot_wellFormed _ _ _, boot_coherent _ _ _⟩ fun _ _ _ sound step => step.sound sound

end Nachos
