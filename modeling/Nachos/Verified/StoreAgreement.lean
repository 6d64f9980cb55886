import Nachos.Verified.ForkCopy
import Nachos.Verified.UserBytes

/-!
# Where kernel stores and user stores differ

`userReadWrite` with `'r'` against the same stores made by the program.  Both load a page with the
same call of `PageIn` and put the same bytes into its frame.  The kernel does not look at `readOnly`,
though, and does not set `dirty`.  So they agree on pages that are dirty already and, if they are in
memory when the call comes to them, not protected.  On any other page, if a protected page really
shares its frame, there is a byte that is not stored as the program would store it: on a clean page
it is forgotten when the page is paged out, and on a shared page it reaches the other process.
-/

namespace Nachos

open Loops Runs

abbrev pageOffset (addr : BitVec 32) : Fin pageSize :=
  ⟨addr.toNat % pageSize, pageOffset_lt addr⟩

/-- A protected page in memory has its frame in common with another process. -/
def ProtectedShared (s : Kernel) (pid v : Nat) : Prop :=
  ∀ space, s.allPCB pid = some space → (space.pageTable v).valid = true →
    (space.pageTable v).readOnly = true →
    ∃ q w spaceQ, q ≠ pid ∧ s.allPCB q = some spaceQ ∧ w < spaceQ.numPages ∧
      (spaceQ.pageTable w).physicalPage = (space.pageTable v).physicalPage

def StoresAlike (s : Kernel) (pid : Nat) (space : AddrSpace) (virtAddr v : Nat) : Prop :=
  (space.pageTable v).dirty = true ∧
    ((clock s pid space (virtAddr / pageSize) (v - virtAddr / pageSize)).Resident
      (space.pageTable v) → (space.pageTable v).readOnly = false)

instance (s : Kernel) (pid : Nat) (space : AddrSpace) (virtAddr v : Nat) :
    Decidable (StoresAlike s pid space virtAddr v) :=
  inferInstanceAs (Decidable (_ ∧ _))

/-- The byte stored at `addr` is gone when its page is paged out. -/
def LostWhenEvicted (s : Kernel) (pid : Nat) (addr : BitVec 32) (byte : Byte) : Prop :=
  ∃ d, cell s pid (addr.toNat / pageSize) = some d ∧ d.evict.content (pageOffset addr) ≠ byte

/-- Another process finds the byte in one of its pages, where it was not, in memory or outside. -/
def ReachesOther (s s' : Kernel) (pid : Nat) (addr : BitVec 32) (byte : Byte) : Prop :=
  ∃ q w c d, q ≠ pid ∧ cell s q w = some c ∧ cell s' q w = some d ∧
    d.content (pageOffset addr) = byte ∧ c.content (pageOffset addr) ≠ byte ∧
    c.evict.content (pageOffset addr) ≠ byte

variable {pid q v w j k n f size : Nat} {addr virtAddr : BitVec 32} {s s₁ t : Kernel}
  {byte : Byte} {space space₁ : AddrSpace} {buffer bytes : Nat → Byte} {c d : DemandCell Page}

/-! ## Stores of the program -/

theorem storeBytes_byte (machine : Machine) (byte : Byte) :
    storeBytes machine 1 (byte.zeroExtend 32) = .ok fun _ => byte := by
  have same : ((byte.zeroExtend 32) &&& 0xff#32).truncate 8 = byte := by
    apply BitVec.eq_of_toNat_eq
    simp only [BitVec.truncate_eq_setWidth, BitVec.toNat_setWidth, BitVec.toNat_and,
      BitVec.toNat_ofNat]
    rw [show 255 % 2 ^ 32 = 2 ^ 8 - 1 by decide, Nat.and_two_pow_sub_one_eq_mod]
    omega
  simp only [storeBytes, same]

theorem writeMem_byte (inFrame : InFrame s pid space addr f)
    (writable : (space.pageTable (addr.toNat / pageSize)).readOnly = false) (byte : Byte) :
    writeMem pid addr 1 (byte.zeroExtend 32) s =
      .ok (.done (s.storeInto pid space (addr.toNat / pageSize) true (fun _ => byte)
        (f * pageSize + addr.toNat % pageSize) 1)) := by
  simp only [writeMem, Kernel.space_eq_ok.mpr inFrame.found, ok_bind,
    translate_inFrame inFrame true (fun _ => writable), storeBytes_byte]
  rfl

theorem writeMem_absent (absent : Absent s pid space addr) (value : BitVec 32) :
    writeMem pid addr 1 value s = .ok (.raised .pageFaultException) := by
  simp only [writeMem, Kernel.space_eq_ok.mpr absent.found, ok_bind, translate_absent absent]
  rfl

theorem InFrame.storeInto {pid f physAddr count : Nat} {addr next : BitVec 32} {writing : Bool}
    {bytes : Nat → Byte} (inFrame : InFrame s pid space addr f)
    (page : next.toNat / pageSize = addr.toNat / pageSize) :
    InFrame (s.storeInto pid space (addr.toNat / pageSize) writing bytes physAddr count) pid
      (space.setEntry (addr.toNat / pageSize)
        ((space.pageTable (addr.toNat / pageSize)).touched writing)) next f where
  found := if_pos rfl
  inTable := page ▸ inFrame.inTable
  valid := by
    rw [page, AddrSpace.setEntry_pageTable, if_pos rfl]
    exact inFrame.valid
  maps := by
    rw [page, AddrSpace.setEntry_pageTable, if_pos rfl]
    exact inFrame.maps
  frame := inFrame.frame

theorem bcopy_one (source memory : Nat → Byte) (dest : Nat) :
    bcopy (fun _ => source 0) dest 1 memory = bcopy source dest 1 memory := by
  funext address
  simp only [bcopy]
  split
  next inside => rw [show address - dest = 0 by omega]
  next => rfl

theorem bcopy_succ (source memory : Nat → Byte) (dest count : Nat) :
    bcopy (fun _ => source count) (dest + count) 1 (bcopy source dest count memory) =
      bcopy source dest (count + 1) memory := by
  funext address
  simp only [bcopy]
  by_cases last : address = dest + count
  · subst last
    rw [if_pos (by omega), if_pos (by omega), Nat.add_sub_cancel_left]
  · rw [if_neg (by omega)]
    by_cases inside : dest ≤ address ∧ address < dest + count
    · rw [if_pos inside, if_pos (by omega)]
    · rw [if_neg inside, if_neg (by omega)]

theorem Kernel.storeInto_succ (s : Kernel) (pid : Nat) (space : AddrSpace) (vpn : Nat)
    (bytes : Nat → Byte) (physAddr count : Nat) :
    (s.storeInto pid space vpn true bytes physAddr count).storeInto pid
      (space.setEntry vpn ((space.pageTable vpn).touched true)) vpn true (fun _ => bytes count)
      (physAddr + count) 1 = s.storeInto pid space vpn true bytes physAddr (count + 1) := by
  have memory := bcopy_succ bytes s.machine.mainMemory physAddr count
  have entry : (space.setEntry vpn ((space.pageTable vpn).touched true)).setEntry vpn
      (((space.setEntry vpn ((space.pageTable vpn).touched true)).pageTable vpn).touched true) =
      space.setEntry vpn ((space.pageTable vpn).touched true) := by
    simp only [AddrSpace.setEntry, if_true, TranslationEntry.touched, Bool.true_or]
    congr 1
    funext v
    split
    next => rfl
    next => rfl
  simp only [Kernel.storeInto, Kernel.setMemory, Kernel.setSpace, entry, memory]
  congr 1
  funext q
  split
  next => rfl
  next => rfl

theorem userStore_resident (inFrame : InFrame s pid space addr f)
    (writable : (space.pageTable (addr.toNat / pageSize)).readOnly = false) (byte : Byte)
    (tries : Nat) :
    userStore pid addr byte (tries + 1) s =
      .ok (s.storeInto pid space (addr.toNat / pageSize) true (fun _ => byte)
        (f * pageSize + addr.toNat % pageSize) 1) := by
  simp only [userStore, writeMem_byte inFrame writable]
  rfl

theorem userStores_resident (inFrame : InFrame s pid space addr f)
    (writable : (space.pageTable (addr.toNat / pageSize)).readOnly = false) (bytes : Nat → Byte)
    (within : addr.toNat % pageSize + (n + 1) ≤ pageSize) :
    userStores pid bytes addr (n + 1) s =
      .ok (s.storeInto pid space (addr.toNat / pageSize) true bytes
        (f * pageSize + addr.toNat % pageSize) (n + 1)) := by
  induction n with
  | zero =>
    have first := userStore_resident inFrame writable (bytes 0) 1
    simp only [userStores, forUpToM, ok_bind, BitVec.add_zero]
    rw [first]
    simp only [Kernel.storeInto, bcopy_one]
  | succ n ih =>
    have earlier := ih (by omega)
    -- the next byte is on the same page, which has stayed where it was
    have toNat : (addr + BitVec.ofNat 32 (n + 1)).toNat = addr.toNat + (n + 1) := by
      apply toNat_add_ofNat
      simp only [pageSize] at *
      omega
    have page : (addr + BitVec.ofNat 32 (n + 1)).toNat / pageSize = addr.toNat / pageSize := by
      rw [toNat]
      simp only [pageSize] at *
      omega
    have offset : (addr + BitVec.ofNat 32 (n + 1)).toNat % pageSize =
        addr.toNat % pageSize + (n + 1) := by
      rw [toNat]
      simp only [pageSize] at *
      omega
    show userStores pid bytes addr (n + 1) s >>= _ = _
    rw [earlier]
    show userStore pid (addr + BitVec.ofNat 32 (n + 1)) (bytes (n + 1)) 2 _ = _
    rw [userStore_resident (inFrame.storeInto page)
      (by rw [page, AddrSpace.setEntry_pageTable, if_pos rfl]; exact writable), page, offset,
      ← Nat.add_assoc, Kernel.storeInto_succ]

theorem userStores_absent (absent : Absent s pid space addr) (bytes : Nat → Byte) (n : Nat) :
    userStores pid bytes addr (n + 1) s = pageIn pid addr s >>= fun s₁ =>
      userStore pid addr (bytes 0) 1 s₁ >>=
        forUpToM (fun k => userStore pid (addr + BitVec.ofNat 32 (1 + k)) (bytes (1 + k)) 2) n := by
  have first : userStore pid addr (bytes 0) 2 s = pageIn pid addr s >>=
      userStore pid addr (bytes 0) 1 := by
    simp only [userStore, writeMem_absent absent]
    rfl
  unfold userStores
  rw [Nat.add_comm n 1, forUpToM_add]
  simp only [forUpToM, ok_bind, BitVec.add_zero]
  simp only [bind, Except.bind] at first
  rw [first]
  cases pageIn pid addr s with
  | error => rfl
  | ok => rfl

theorem userStores_loads (absent : Absent s pid space addr) (loaded : pageIn pid addr s = .ok s₁)
    (inFrame : InFrame s₁ pid space₁ addr f)
    (writable : (space₁.pageTable (addr.toNat / pageSize)).readOnly = false) (bytes : Nat → Byte)
    (n : Nat) : userStores pid bytes addr (n + 1) s = userStores pid bytes addr (n + 1) s₁ := by
  rw [userStores_absent absent, loaded]
  unfold userStores
  rw [Nat.add_comm n 1, forUpToM_add]
  simp only [forUpToM, ok_bind, BitVec.add_zero]
  rw [userStore_resident inFrame writable _ 0, userStore_resident inFrame writable _ 1]

/-- The bit `dirty` is all that an access of the kernel leaves out. -/
theorem Kernel.storeInto_dirty {pid vpn : Nat} (dirty : (space.pageTable vpn).dirty = true)
    (bytes : Nat → Byte) (physAddr count : Nat) :
    s.storeInto pid space vpn false bytes physAddr count =
      s.storeInto pid space vpn true bytes physAddr count := by
  simp only [Kernel.storeInto, TranslationEntry.touched, dirty, Bool.or_true]

theorem userStores_add (pid : Nat) (bytes : Nat → Byte) (addr : BitVec 32) (m n : Nat)
    (s : Kernel) :
    userStores pid bytes addr (m + n) s = userStores pid bytes addr m s >>=
      userStores pid (fun k => bytes (m + k)) (addr + BitVec.ofNat 32 m) n := by
  unfold userStores
  rw [forUpToM_add]
  simp only [BitVec.ofNat_add, BitVec.add_assoc]

theorem storeInto_cell_shared {pid q w f : Nat} {spaceQ : AddrSpace} (other : q ≠ pid)
    (found : s.allPCB q = some spaceQ) (maps : (spaceQ.pageTable w).physicalPage = (f : Int))
    (here : cell s q w = some c) (space : AddrSpace) (addr : BitVec 32) (writing : Bool)
    (bytes : Nat → Byte) (count : Nat) :
    ∃ d, cell (s.storeInto pid space (addr.toNat / pageSize) writing bytes
        (f * pageSize + addr.toNat % pageSize) count) q w = some d ∧
      d.content = storePage c.content bytes (addr.toNat % pageSize) count := by
  obtain ⟨spaceQ', found', below, rfl⟩ := cell_inv here
  cases found.symm.trans found'
  have resident : ¬ (f : Int) = -1 := by omega
  have filled := frame_store s.machine.mainMemory bytes f (addr.toNat % pageSize) count
  refine ⟨_, cell_of_space ((if_neg other).trans found) below, ?_⟩
  simp [pageCell, maps, resident, filled, Kernel.storeInto, Kernel.setMemory]

/-- Bringing a page in changes neither its backing copy nor its bit `dirty`. -/
theorem BroughtIn.cell {s s₁ : Kernel} (sound : Sound s)
    (brought : BroughtIn s pid addr s₁) (here : Nachos.cell s pid (addr.toNat / pageSize) = some c) :
    ∃ d, Nachos.cell s₁ pid (addr.toNat / pageSize) = some d ∧ d.backing = c.backing ∧
      d.dirty = c.dirty := by
  cases brought with
  | present => exact ⟨c, here, rfl, rfl⟩
  | @loaded space _ found invalid run =>
    obtain ⟨space', found', below, -⟩ := cell_inv here
    cases found.symm.trans found'
    have faults : PageFaults s pid addr := ⟨_, ⟨space, found, below, rfl⟩, invalid⟩
    obtain ⟨-, -, loaded, c', d, -, before, -, after, faulted⟩ :=
      pageFault_cells sound faults run
    cases before.symm.trans here
    refine ⟨d, after, ?_⟩
    cases faulted with
    | zeroed => exact ⟨rfl, rfl⟩
    | filled => exact ⟨rfl, rfl⟩

theorem storePage_offset (page : Page) (byte : Byte) (addr : BitVec 32) :
    storePage page (fun _ => byte) (addr.toNat % pageSize) 1 (pageOffset addr) = byte := by
  simp only [storePage]
  rw [if_pos (by omega)]

/-! ## Visits of the kernel -/

theorem Visits.reaches {opt : TransferOpt} (visits : Visits pid opt buffer virtAddr size s j k t)
    (sound : Sound s) (found : s.allPCB pid = some space) (address : addr.toNat = virtAddr.toNat + k) :
    virtAddr + BitVec.ofNat 32 k = addr := by
  apply BitVec.eq_of_toNat_eq
  rw [toNat_add_ofNat (visits.lt sound found), address]

/-- The kernel leaves a clean page clean, and its backing copy as it was. -/
theorem Visits.clean {opt : TransferOpt} (visits : Visits pid opt buffer virtAddr size s j k t)
    (sound : Sound s) (here : cell s pid v = some c) (clean : c.dirty = false) :
    ∃ d, cell t pid v = some d ∧ d.dirty = false ∧ d.backing = c.backing := by
  induction visits with
  | start => exact ⟨c, here, clean, rfl⟩
  | @next j k n f t t₁ addr space₁ earlier part _ brought inFrame ih =>
    obtain ⟨d, hereT, cleanT, backingT⟩ := ih
    obtain ⟨soundT, -⟩ := earlier.kept sound
    by_cases isPage : v = addr.toNat / pageSize
    · subst isPage
      obtain ⟨e, here₁, backing₁, dirty₁⟩ := brought.cell soundT hereT
      exact ⟨_, storeInto_cell inFrame here₁, dirty₁.trans cleanT, backing₁.trans backingT⟩
    · have kept : ∃ e, cell t₁ pid v = some e ∧ e.dirty = false ∧ e.backing = c.backing := by
        cases brought with
        | present => exact ⟨d, hereT, cleanT, backingT⟩
        | loaded found invalid run =>
          obtain ⟨e, after, same | ⟨-, evicted⟩⟩ := (pageFault_cells soundT
            (BroughtIn.faults soundT.toWellFormed found invalid run) run).2.1
            (fun both => isPage both.2) hereT
          · exact ⟨e, after, same ▸ cleanT, same ▸ backingT⟩
          · refine ⟨e, after, evicted ▸ cleanT, ?_⟩
            rw [evicted, ← backingT]
            simp [DemandCell.evict, cleanT]
      obtain ⟨e, here₁, kept⟩ := kept
      have sound₁ := brought.sound soundT
      have less := Nat.le_trans (Nat.add_le_add_left (opt.stored_le n) _) part.within
      refine ⟨e, storeInto_cell_other sound₁.toWellFormed inFrame less (fun both => isPage both.2)
        (fun _ held => ?_) here₁, kept⟩
      exact isPage (sound₁.coherent.once held
        ⟨space₁, inFrame.found, inFrame.inTable, inFrame.maps⟩)

section

variable (positive : 0 < size) (sound : Sound s) (found : s.allPCB pid = some space)

include positive sound found

section

variable (alike : ∀ v, rangePages virtAddr.toNat size v → StoresAlike s pid space virtAddr.toNat v)

include alike

/-- A visit to a page that the program could store into is the stores of its bytes. -/
theorem Visits.stores (visits : Visits pid .r buffer virtAddr size s j k t) :
    userStores pid buffer virtAddr k s = .ok t := by
  induction visits with
  | start => rfl
  | @next j k n f t t₁ addr space₁ earlier part addressable brought inFrame ih =>
    have ⟨address, page, _, within, _, nonempty, covers⟩ := part
    obtain ⟨m, rfl⟩ := Nat.exists_eq_succ_of_ne_zero (nonempty positive).ne'
    rw [userStores_add, ih, ok_bind, earlier.reaches sound found address]
    obtain ⟨clocked, -⟩ := earlier.clocked sound found
    obtain ⟨spaceT, foundT, pages, entries⟩ := clocked.entries found
    obtain ⟨dirty, writable⟩ := alike _ covers
    have isBefore : addr.toNat / pageSize - virtAddr.toNat / pageSize = j := by omega
    rw [isBefore] at writable
    have entry := entries (addr.toNat / pageSize) (by omega)
    have dirtyT : (spaceT.pageTable (addr.toNat / pageSize)).dirty = true := by
      obtain same | evicted := entry
      · rw [same, dirty]
      · rw [evicted]
        exact dirty
    obtain ⟨stays, rfl⟩ | ⟨-, ⟨_, ⟨spaceF, foundF, inTable, rfl⟩, invalid⟩, run, -⟩ :=
      clocked.brings sound found page brought inFrame
    · cases foundT.symm.trans inFrame.found
      have same : space₁.pageTable (addr.toNat / pageSize) =
          space.pageTable (addr.toNat / pageSize) := by
        refine entry.resolve_right fun evicted => ?_
        have valid := inFrame.valid
        rw [evicted] at valid
        cases valid
      rw [userStores_resident inFrame (same ▸ writable stays) _ within]
      exact congrArg _ (Kernel.storeInto_dirty dirtyT ..).symm
    · cases foundT.symm.trans foundF
      obtain ⟨space', f', inFrame', -, unprotected, dirtySame, -⟩ :=
        pageIn_entries clocked.sound.toWellFormed foundT run
      cases inFrame'.found.symm.trans inFrame.found
      rw [userStores_loads ⟨foundT, inTable, invalid⟩ run inFrame unprotected,
        userStores_resident inFrame unprotected _ within]
      exact congrArg _ (Kernel.storeInto_dirty (dirtySame.trans dirtyT) ..).symm

/-- Where a copy fails, the stores of the program do. -/
theorem LoadFails.stores {fault : Fault} (fails : LoadFails pid .r buffer virtAddr size s fault) :
    userStores pid buffer virtAddr size s = .error fault := by
  obtain ⟨j, k, n, t, addr, spaceT, visits, part, -, absent, failed⟩ := fails
  have some := part.nonempty positive
  obtain ⟨m, rfl⟩ := Nat.exists_eq_add_of_lt (show k < size by have := part.most; omega)
  rw [Nat.add_assoc, userStores_add, visits.stores positive sound found alike, ok_bind,
    visits.reaches sound found part.address, userStores_absent absent, failed]
  rfl

end

variable (isLast : addr.toNat + 1 = virtAddr.toNat + size)
  (start : addr = virtAddr ∨ addr.toNat % pageSize = 0)
  (stays : (clock s pid space (virtAddr.toNat / pageSize)
    (addr.toNat / pageSize - virtAddr.toNat / pageSize)).Resident
      (space.pageTable (addr.toNat / pageSize)))
  (other : q ≠ pid)
  (held : (sharing s).hold q w (space.pageTable (addr.toNat / pageSize)).physicalPage.toNat)

include isLast start stays other held

/-- The last byte that the kernel stores reaches every page in the frame. -/
theorem Visits.last (visits : Visits pid .r (fun _ => byte) virtAddr size s j k t) (all : k = size)
    (visited : addr.toNat / pageSize < virtAddr.toNat / pageSize + j) :
    ∃ d, cell t q w = some d ∧ d.content (pageOffset addr) = byte := by
  cases visits with
  | start => omega
  | @next j k n f t t₁ addr' space₁ earlier part addressable brought inFrame =>
    have ⟨address, page, _, within, most, nonempty, _⟩ := part
    have someBytes := nonempty positive
    have isAddr : addr' = addr := by
      apply BitVec.eq_of_toNat_eq
      obtain rfl | aligned := start
      · omega
      · simp only [pageSize] at *
        omega
    subst isAddr
    obtain rfl : n = 1 := by omega
    obtain ⟨clocked, -⟩ := earlier.clocked sound found
    have isBefore : addr'.toNat / pageSize - virtAddr.toNat / pageSize = j := by omega
    rw [isBefore] at stays
    obtain ⟨-, rfl⟩ | ⟨gone, -⟩ := clocked.brings sound found page brought inFrame
    · have heldT : (sharing t₁).hold pid (addr'.toNat / pageSize) f :=
        ⟨space₁, inFrame.found, inFrame.inTable, inFrame.maps⟩
      have free := clocked.free heldT (by omega)
      obtain ⟨space', found', -, maps⟩ := (clocked.holds _ _ _ free).mp heldT
      cases found.symm.trans found'
      rw [maps, Int.toNat_natCast] at held
      obtain ⟨spaceQ, foundQ, below, mapsQ⟩ := (clocked.holds q w f free).mpr held
      obtain ⟨d, after, content⟩ := storeInto_cell_shared other foundQ mapsQ
        (cell_of_space foundQ below) space₁ addr' false (fun _ => byte) 1
      exact ⟨d, after, content ▸ storePage_offset ..⟩
    · exact absurd stays gone

/-- A shared page: what the kernel stores is seen by the other process. -/
theorem shared_page_reached {sK : Kernel} {buffer' : Nat → Byte}
    (contains : space.Contains virtAddr size)
    (run : userReadWrite pid (fun _ => byte) virtAddr size .r s = .ok (buffer', sK)) :
    ∃ d, cell sK q w = some d ∧ d.content (pageOffset addr) = byte := by
  cases userReadWrite_outcome .r (fun _ => byte) virtAddr size sound found with
  | outside outside => exact absurd (.inr contains) outside
  | failed _ result => cases result.symm.trans run
  | completed _ result copying all =>
    obtain ⟨-, same⟩ := Prod.mk.inj (Except.ok.inj (result.symm.trans run))
    have covers : rangePages virtAddr.toNat size (addr.toNat / pageSize) :=
      ByteInRange.covers ⟨by omega, by omega⟩
    have accepts := (contains_iff_accepts positive).mp contains _ covers
    exact same ▸ copying.visits.last positive sound found isLast start stays other held rfl
      (all _ covers accepts)

end

/-! ## Every run -/

theorem exists_other_byte (first second : Byte) : ∃ byte, byte ≠ first ∧ byte ≠ second := by
  by_cases next : first + 1#8 = second
  · refine ⟨first + 2#8, ?_, ?_⟩
    · simp
    · rw [← next]
      simp
  · exact ⟨first + 1#8, by simp, next⟩

/-- The first byte of the range on a page of the range. -/
theorem rangePages_start (fits : virtAddr.toNat + size ≤ 2 ^ 32) (positive : 0 < size)
    (covers : rangePages virtAddr.toNat size v) :
    ∃ addr : BitVec 32, ∃ size', addr.toNat / pageSize = v ∧ 0 < size' ∧ size' ≤ size ∧
      addr.toNat + 1 = virtAddr.toNat + size' ∧ (addr = virtAddr ∨ addr.toNat % pageSize = 0) := by
  obtain ⟨after, before⟩ := covers
  by_cases inside : v * pageSize ≤ virtAddr.toNat
  · refine ⟨virtAddr, 1, ?_, by omega, by omega, rfl, .inl rfl⟩
    simp only [pageSize] at *
    omega
  · have toNat : (BitVec.ofNat 32 (v * pageSize)).toNat = v * pageSize := by
      rw [BitVec.toNat_ofNat, Nat.mod_eq_of_lt (by omega)]
    refine ⟨BitVec.ofNat 32 (v * pageSize), v * pageSize + 1 - virtAddr.toNat, ?_, by omega, by omega,
      by omega, .inr ?_⟩
    · rw [toNat, Nat.mul_div_cancel _ (by decide)]
    · rw [toNat, Nat.mul_mod_left]

/-- A clean page: what the kernel stores is lost when the page is paged out. -/
theorem clean_page_lost {sK : Kernel} {buffer' : Nat → Byte} (sound : Sound s)
    (here : cell s pid (addr.toNat / pageSize) = some c) (clean : c.dirty = false)
    (different : byte ≠ c.backing (pageOffset addr))
    (run : userReadWrite pid (fun _ => byte) virtAddr size .r s = .ok (buffer', sK)) :
    LostWhenEvicted sK pid addr byte := by
  have kernel : ∃ d, cell sK pid (addr.toNat / pageSize) = some d ∧ d.dirty = false ∧
      d.backing = c.backing := by
    obtain ⟨-, rfl | ⟨_, j, -, visits⟩⟩ := userReadWrite_inv sound run
    · exact ⟨c, here, clean, rfl⟩
    · exact visits.clean sound here clean
  obtain ⟨d, after, clean, backing⟩ := kernel
  refine ⟨d, after, ?_⟩
  simp only [DemandCell.evict, clean, Bool.false_eq_true, if_false, backing]
  exact different.symm

/-- In a run with any steps and kernel copies: a call of `userReadWrite` with `'r'` leaves the state
that the stores of its bytes by the program leave, if each page of the range is dirty and, if the
call finds it in memory, not protected.  A call for no bytes leaves all bytes that processes find, if
the page that it may load costs none.  If a page of the range is not of that kind, and protection
means that the frame is shared, then the first byte on that page, for some value, is lost when the
page is paged out, or is found by another process. -/
theorem kernel_stores_like_user {bigEndian : Bool} {junk : Nat → BitVec 32} {files : Files}
    {history : List (Kernel × SystemOp)} {s : Kernel} {pid : Nat} {space : AddrSpace}
    (run : Run SystemStep (boot bigEndian junk files) history s)
    (found : s.allPCB pid = some space) (virtAddr : BitVec 32) (size : Nat)
    (contains : space.Contains virtAddr size) :
    (∀ buffer, 0 < size →
      (∀ v, rangePages virtAddr.toNat size v → StoresAlike s pid space virtAddr.toNat v) →
      ∀ s', userReadWrite pid buffer virtAddr size .r s = .ok (buffer, s') ↔
        userStores pid buffer virtAddr size s = .ok s') ∧
    (∀ buffer, size = 0 → SizesFit s → CopyKeeps s pid space virtAddr.toNat size →
      ∃ s', userReadWrite pid buffer virtAddr size .r s = .ok (buffer, s') ∧
        userStores pid buffer virtAddr size s = .ok s ∧ ∀ q addr, byteAt s' q addr = byteAt s q addr) ∧
    (∀ v, 0 < size → rangePages virtAddr.toNat size v → ProtectedShared s pid v →
      ¬ StoresAlike s pid space virtAddr.toNat v →
      ∃ addr size' byte, addr.toNat / pageSize = v ∧ addr.toNat + 1 = virtAddr.toNat + size' ∧
        size' ≤ size ∧ ∀ buffer' sK,
        userReadWrite pid (fun _ => byte) virtAddr size' .r s = .ok (buffer', sK) →
        LostWhenEvicted sK pid addr byte ∨ ReachesOther s sK pid addr byte) := by
  have sound := system_sound run
  have start := toInt_of_nonneg contains.nonneg
  have signed := contains.signed
  refine ⟨fun buffer positive alike s' => ?_, ?_, fun v positive covers shared differs => ?_⟩
  · cases userReadWrite_outcome .r buffer virtAddr size sound found with
    | outside outside => exact absurd (.inr contains) outside
    | completed inside result copying =>
      rw [result, copying.visits.stores positive sound found alike, copying.sameBuffer rfl]
      simp
    | failed fails result =>
      rw [result, fails.stores positive sound found alike]
      simp
  · rintro buffer rfl fits keeps
    obtain ⟨s', copied, bytes⟩ :=
      userReadWrite_stores sound (swapsWhole_of_run run fits) found contains keeps buffer
    refine ⟨s', copied, rfl, fun q addr => (bytes q addr).trans ?_⟩
    rw [copiedBytes, overlay_outside fun inside => absurd inside.2 (Nat.not_lt.mpr inside.1)]
    split
    next isPid => rw [isPid]
    next => rfl
  · have inTable := ((contains_iff_accepts positive).mp contains v covers).1
    obtain ⟨addr, size', rfl, positive', most, isLast, first⟩ :=
      rangePages_start (by omega) positive covers
    have here := cell_of_space found inTable
    cases dirty : (space.pageTable (addr.toNat / pageSize)).dirty with
    | false =>
      obtain ⟨byte, different, -⟩ := exists_other_byte
        (swapPage s.files pid (addr.toNat / pageSize) (pageOffset addr)) 0#8
      exact ⟨addr, size', byte, rfl, isLast, most, fun _ _ run =>
        .inl (clean_page_lost sound here dirty different run)⟩
    | true =>
      obtain ⟨stays, protectedPage⟩ := Classical.not_imp.mp fun writable => differs ⟨dirty, writable⟩
      obtain ⟨q, w, spaceQ, other, foundQ, below, sameFrame⟩ :=
        shared space found stays.1 (by simpa using protectedPage)
      obtain ⟨f, -, maps⟩ := (sound.entries found _ inTable).frame stays.1
      obtain ⟨c, hereQ⟩ : ∃ c, cell s q w = some c := ⟨_, cell_of_space foundQ below⟩
      obtain ⟨byte, different, differentOut⟩ := exists_other_byte (c.content (pageOffset addr))
        (c.evict.content (pageOffset addr))
      have held : (sharing s).hold q w (space.pageTable (addr.toNat / pageSize)).physicalPage.toNat := by
        refine ⟨spaceQ, foundQ, below, ?_⟩
        rw [sameFrame, maps, Int.toNat_natCast]
      have contains' : space.Contains virtAddr size' := by
        have pages := contains.pages
        exact ⟨contains.nonneg, by omega, by omega⟩
      refine ⟨addr, size', byte, rfl, isLast, most, fun _ _ run => .inr ?_⟩
      obtain ⟨d, after, content⟩ :=
        shared_page_reached positive' sound found isLast first stays other held contains' run
      exact ⟨q, w, c, d, other, hereQ, after, content, different.symm, differentOut.symm⟩

/-- A program has stored to its first two pages and has forked, and then its first page was paged
out; the second is still in memory and protected, and will be the next to go.  The kernel stores to
both: loading the first page takes the frame of the second, so that neither page is shared when its
byte is stored. -/
theorem kernel_store_to_dirty_pages : ∃ history s s' space,
    Run SystemStep (bootWith (noffFile (linkedHeader 4 0 4224) [1#8, 2#8, 3#8, 4#8])) history s ∧
    s.allPCB 0 = some space ∧ (space.pageTable 0).valid = false ∧
    (space.pageTable 1).valid = true ∧ (space.pageTable 1).readOnly = true ∧
    userReadWrite 0 (fun _ => 9#8) 127#32 2 .r s = .ok (fun _ => 9#8, s') ∧
    userStores 0 (fun _ => 9#8) 127#32 2 s = .ok s' := by
  simp only [exists_and_left]
  refine computed_systemRun (fun s => (∃ s', userStores 0 (fun _ => 9#8) 127#32 2 s = .ok s' ∧ True) ∧
      ∃ space, s.allPCB 0 = some space ∧ space.Contains 127#32 2 ∧
        (space.pageTable 0).valid = false ∧ (space.pageTable 1).valid = true ∧
        (space.pageTable 1).readOnly = true ∧ StoresAlike s 0 space 127 0 ∧
        StoresAlike s 0 space 127 1)
    ([.start (.path "prog") 0, .pageFault 0 0#32, .store 0 0#32 1 77#32, .pageFault 0 128#32,
      .store 0 128#32 1 78#32, .fork 0 1] ++ touchPages 0 2 31) (by decide +kernel)
    fun history s run checked => ?_
  obtain ⟨⟨s', stored, -⟩, space, found, contains, out, inMemory, protectedPage, first, second⟩ :=
    checked
  have alike : ∀ v, rangePages (127#32).toNat 2 v → StoresAlike s 0 space (127#32).toNat v := by
    intro v covers
    have pages : v = 0 ∨ v = 1 := by
      simp only [rangePages, BitVec.toNat_ofNat, pageSize] at covers
      omega
    obtain rfl | rfl := pages
    · exact first
    · exact second
  exact ⟨s', space, found, out, inMemory, protectedPage,
    ((kernel_stores_like_user run found 127#32 2 contains).1 _ (by decide) alike s').mpr stored, stored⟩

/-- A program touches its first page and forks.  A store there by the kernel for the child
changes the page of the parent; the same store by the child does not. -/
theorem kernel_store_reaches_parent : ∃ history s buffer' sK sU,
    Run SystemStep (bootWith fourBytes) history s ∧
    userReadWrite 1 (fun _ => 9#8) 0#32 1 .r s = .ok (buffer', sK) ∧
    userStores 1 (fun _ => 9#8) 0#32 1 s = .ok sU ∧
    (accessPage s 0 0#32).map (fun page => page 0) = some 1#8 ∧
    (accessPage sK 0 0#32).map (fun page => page 0) = some 9#8 ∧
    (accessPage sU 0 0#32).map (fun page => page 0) = some 1#8 := by
  simp only [exists_and_left]
  exact computed_systemRun _ [.start (.path "prog") 0, .pageFault 0 0#32, .fork 0 1]
    (by decide +kernel) fun _ _ _ checked => checked

end Nachos
