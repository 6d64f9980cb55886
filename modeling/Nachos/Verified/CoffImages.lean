import Nachos.Bin.Coff2noff
import Nachos.Lib.Tilings

/-!
# Images made by coff2noff

The test for `.bss` and `.sbss` is the wrong way round: a second section is refused when it starts
where the first ends, and merged with it when it does not.  And of several `.text` sections only the
last is recorded.  Everything else in the NOFF file is as in the COFF file.
-/

namespace Nachos

open Loops Tilings

/-! ## Sections and segments -/

def ofKind (kind : SectionKind) (sections : List ScnHdr) : List ScnHdr :=
  sections.filter fun header => decide (header.kind = kind) && decide (header.size ≠ 0#32)

structure ScnHdr.Proper (header : ScnHdr) : Prop where
  paddr : 0 ≤ header.paddr.toInt
  size : 0 ≤ header.size.toInt
  scnptr : 0 ≤ header.scnptr.toInt

def ScnHdr.begin (header : ScnHdr) : Int := header.paddr.toInt

def ScnHdr.count (header : ScnHdr) : Nat := header.size.toInt.toNat

structure Holds (file out : File) (segment : Segment) (header : ScnHdr) : Prop where
  virtualAddr : segment.virtualAddr = header.paddr
  size : segment.size = header.size
  bytes : ∀ i < header.count,
    out.bytes (segment.inFileAddr.toNat + i) = file.bytes (header.scnptr.toNat + i)

def SameImage (file out : File) : Prop :=
  ∃ noffH, readHeader false out = .ok noffH ∧
    (∀ header ∈ ofKind .text file.sections, Holds file out noffH.code header) ∧
    (ofKind .text file.sections = [] → noffH.code.size = 0#32) ∧
    (∀ header ∈ ofKind .data file.sections, Holds file out noffH.initData header) ∧
    (ofKind .data file.sections = [] → noffH.initData.size = 0#32) ∧
    ∀ a : Int, Covers ScnHdr.begin ScnHdr.count (ofKind .bss file.sections) a ↔
      noffH.uninitData.virtualAddr.toInt ≤ a ∧
        a < noffH.uninitData.virtualAddr.toInt + noffH.uninitData.size.toInt

/-! ## What is accepted -/

structure HasHeaders (file : File) : Prop where
  length : filehdrSize + aouthdrSize + file.numsections * scnhdrSize ≤ file.length
  fileMagic : file.short 0 = mipselMagic
  systemMagic : file.short filehdrSize = omagic

def storedSize (sections : List ScnHdr) : Nat :=
  noffHeaderSize + total ScnHdr.count (ofKind .text sections) +
    total ScnHdr.count (ofKind .data sections)

def Fits (file : File) (before : List ScnHdr) (header : ScnHdr) : Prop :=
  header.scnptr.toNat + header.count ≤ file.length ∧ storedSize before + header.count < 2 ^ 31

/-- Nothing is wrong with the section, after those `before` it, that has nothing to do with `.bss`. -/
def LoadableAfter (file : File) (before : List ScnHdr) (header : ScnHdr) : Prop :=
  header.size ≠ 0#32 →
    match header.kind with
    | .text => Fits file before header
    | .data => ofKind .data before = [] ∧ Fits file before header
    | .bss => True
    | .unknown => False

/-- The section passes the test of `main` for a second `.bss` or `.sbss` section: it does not start
where the sections so far, if they follow each other, end. -/
def MergesAfter (before : List ScnHdr) (header : ScnHdr) : Prop :=
  match ofKind .bss before with
  | [] => True
  | first :: rest =>
    let behind := first.begin + total ScnHdr.count (first :: rest)
    header.begin ≠ behind ∧ behind < 2 ^ 31 ∧
      total ScnHdr.count (first :: rest) + header.count < 2 ^ 31

def Loadable (file : File) : Prop :=
  HasHeaders file ∧ ∀ before header after, file.sections = before ++ header :: after →
    LoadableAfter file before header

def Merges (file : File) : Prop :=
  ∀ before header after, file.sections = before ++ header :: after →
    header.kind = .bss → header.size ≠ 0#32 → MergesAfter before header

/-! ## What is right -/

def Contiguous : List ScnHdr → Prop
  | [] => True
  | first :: rest => Chain ScnHdr.begin ScnHdr.count first.begin (first :: rest)

instance : (sections : List ScnHdr) → Decidable (Contiguous sections)
  | [] => isTrue trivial
  | first :: rest => inferInstanceAs (Decidable (Chain _ _ first.begin (first :: rest)))

def Tiles : List ScnHdr → Prop
  | [] => True
  | first :: rest => ∃ ordered, ordered.Perm (first :: rest) ∧
      Chain ScnHdr.begin ScnHdr.count first.begin ordered

def TextsAgree (file : File) : Prop :=
  ∀ header ∈ ofKind .text file.sections, ∀ other ∈ ofKind .text file.sections,
    other.paddr = header.paddr ∧ other.size = header.size ∧
      ∀ i < header.count, file.bytes (other.scnptr.toNat + i) = file.bytes (header.scnptr.toNat + i)

/-- An accepted file keeps its image, and a file whose `.bss` and `.sbss` sections follow each other
is accepted. -/
def ConvertsExactly (junk : NoffHeader) (file : File) : Prop :=
  (∀ out, coff2noff junk file = .ok out → SameImage file out) ∧
    (Loadable file → Contiguous (ofKind .bss file.sections) →
      ∃ out, coff2noff junk file = .ok out)

/-! ## Steps -/

variable {kind : SectionKind}

section Steps

variable {file : File} {before : List ScnHdr} {header : ScnHdr} {t : Converter}

theorem ofKind_append_same (isKind : header.kind = kind) (nonempty : header.size ≠ 0#32) :
    ofKind kind (before ++ [header]) = ofKind kind before ++ [header] := by
  simp [ofKind, isKind, nonempty]

theorem ofKind_append_other (other : ¬ (header.kind = kind ∧ header.size ≠ 0#32)) :
    ofKind kind (before ++ [header]) = ofKind kind before := by
  rw [ofKind, ofKind, List.filter_append, List.filter_cons_of_neg, List.filter_nil, List.append_nil]
  simpa using other

theorem ofKind_append_ne (before : List ScnHdr) {own : SectionKind} (isKind : header.kind = own)
    (kind : SectionKind) (other : kind ≠ own) :
    ofKind kind (before ++ [header]) = ofKind kind before :=
  ofKind_append_other fun both => other (both.1.symm.trans isKind)

theorem ScnHdr.Proper.toInt_size (proper : header.Proper) : header.size.toInt = header.count :=
  (Int.toNat_of_nonneg proper.size).symm

theorem ScnHdr.Proper.count_pos (proper : header.Proper) (nonempty : header.size ≠ 0#32) :
    0 < header.count := by
  have same := proper.toInt_size
  have notZero : header.size.toInt ≠ 0 := fun zero =>
    nonempty (BitVec.eq_of_toInt_eq (zero.trans BitVec.toInt_zero.symm))
  omega

theorem addInt_ok {a b : BitVec 32} {m n : Int} (first : a.toInt = m) (second : b.toInt = n)
    (lower : -2 ^ 31 ≤ m + n) (upper : m + n < 2 ^ 31) :
    addInt a b = .ok (a + b) ∧ (a + b).toInt = m + n := by
  subst first second
  refine ⟨if_pos ⟨lower, upper⟩, ?_⟩
  rw [BitVec.toInt_add]
  exact Int.bmod_eq_of_le (by omega) (by omega)

theorem addInt_overflow {a b : BitVec 32} {m n : Int} (first : a.toInt = m) (second : b.toInt = n)
    (upper : ¬ m + n < 2 ^ 31) : addInt a b = .error .overflow := by
  subst first second
  exact if_neg fun inside => upper inside.2

theorem readChecked_eq (file : File) (position count : Nat) :
    readChecked file position count = if count ≤ file.length - position then .ok (position + count)
      else .error (.exited "File is too short\n") := by
  have notNegative : ¬ (count : Int) < 0 := by omega
  simp only [readChecked, if_neg notNegative, Int.toNat_natCast]
  by_cases enough : count ≤ file.length - position
  · rw [if_neg (by omega), if_pos enough]
  · rw [if_pos (by omega), if_neg enough]

/-- Inversion of a copy: it succeeds when the bytes are in the file and there is room for them. -/
theorem copySegment_eq (proper : header.Proper) (inStep : t.inNoffFile.toInt = t.fdOut) :
    copySegment file header t =
      if header.count ≤ file.length - header.scnptr.toNat then
        if t.fdOut + header.count < 2 ^ 31 then
          .ok (⟨header.paddr, t.inNoffFile, header.size⟩,
            { t with
              inNoffFile := t.inNoffFile + header.size
              fdIn := header.scnptr.toNat + header.count
              out := t.out.write (fun i => file.bytes (header.scnptr.toNat + i)) header.count t.fdOut
              fdOut := t.fdOut + header.count })
        else .error .overflow
      else .error (.exited "File is too short\n") := by
  have positive : ¬ header.scnptr.toInt < 0 := by
    have := proper.scnptr
    omega
  simp only [copySegment, if_neg positive, proper.toInt_size, readChecked_eq, Int.toNat_natCast]
  split
  next inside =>
    split
    next room =>
      obtain ⟨sum, -⟩ := addInt_ok inStep proper.toInt_size (by omega) (by omega)
      simp only [sum, ok_bind, pure_eq]
    next full =>
      simp only [addInt_overflow inStep proper.toInt_size (by omega), bind, Except.bind]
  next => rfl

def Recorded (file : File) (t : Converter) (segment : Segment) : Option ScnHdr → Prop
  | none => segment.size = 0#32
  | some header => Holds file t.out segment header ∧ noffHeaderSize ≤ segment.inFileAddr.toNat ∧
      segment.inFileAddr.toNat + header.count ≤ t.fdOut

def Merged (segment : Segment) : List ScnHdr → Prop
  | [] => segment.size = 0#32
  | first :: rest => segment.virtualAddr = first.paddr ∧
      segment.size.toInt = total ScnHdr.count (first :: rest)

structure Converted (file : File) (done : List ScnHdr) (t : Converter) : Prop where
  magic : t.noffH.noffMagic = noffMagicNumber
  inStep : t.inNoffFile.toInt = t.fdOut
  position : t.fdOut = storedSize done
  code : Recorded file t t.noffH.code (ofKind .text done).getLast?
  initData : Recorded file t t.noffH.initData (ofKind .data done).getLast?
  single : (ofKind .data done).length ≤ 1
  uninitData : Merged t.noffH.uninitData (ofKind .bss done)

theorem Recorded.write {segment : Segment} {last : Option ScnHdr} {u : Converter}
    (recorded : Recorded file t segment last) {source : Nat → Byte} {count : Nat}
    (out : u.out = t.out.write source count t.fdOut) (fdOut : t.fdOut ≤ u.fdOut) :
    Recorded file u segment last := by
  cases last with
  | none => exact recorded
  | some header =>
    obtain ⟨⟨virtualAddr, size, bytes⟩, behind, before⟩ := recorded
    refine ⟨⟨virtualAddr, size, fun i below => ?_⟩, behind, by omega⟩
    rw [← bytes i below, out]
    exact if_neg (by omega)

theorem Converted.skip (converted : Converted file before t) (empty : header.size = 0#32) :
    Converted file (before ++ [header]) t := by
  have same : ∀ kind, ofKind kind (before ++ [header]) = ofKind kind before :=
    fun kind => ofKind_append_other fun both => both.2 empty
  obtain ⟨magic, inStep, position, code, initData, single, uninitData⟩ := converted
  constructor <;> simpa only [storedSize, same]

theorem recorded_copy (inStep : t.inNoffFile.toInt = t.fdOut) (behind : noffHeaderSize ≤ t.fdOut)
    {t' : Converter}
    (out : t'.out = t.out.write (fun i => file.bytes (header.scnptr.toNat + i)) header.count t.fdOut)
    (fdOut : t'.fdOut = t.fdOut + header.count) :
    Recorded file t' ⟨header.paddr, t.inNoffFile, header.size⟩ (some header) := by
  have start : t.inNoffFile.toNat = t.fdOut := by
    have same := toInt_of_nonneg (inStep ▸ Int.natCast_nonneg _ : 0 ≤ t.inNoffFile.toInt)
    omega
  refine ⟨⟨rfl, rfl, fun i below => ?_⟩, by simp only [start]; omega, by simp only [start]; omega⟩
  rw [out]
  simp only [start, File.write]
  rw [if_pos (by omega), Nat.add_sub_cancel_left]

theorem Converted.copy (converted : Converted file before t) (proper : header.Proper)
    (nonempty : header.size ≠ 0#32) :
    (Fits file before header ∧ ∃ t', copySegment file header t =
        .ok (⟨header.paddr, t.inNoffFile, header.size⟩, t') ∧ t'.noffH = t.noffH ∧
        t'.inNoffFile.toInt = t'.fdOut ∧ t'.fdOut = t.fdOut + header.count ∧
        t'.out = t.out.write (fun i => file.bytes (header.scnptr.toNat + i)) header.count t.fdOut) ∨
      (¬ Fits file before header ∧ ∃ failure, copySegment file header t = .error failure) := by
  have positive := proper.count_pos nonempty
  rw [copySegment_eq proper converted.inStep, Fits, ← converted.position]
  by_cases inside : header.count ≤ file.length - header.scnptr.toNat
  · rw [if_pos inside]
    by_cases room : t.fdOut + header.count < 2 ^ 31
    · rw [if_pos room]
      have sum := (addInt_ok converted.inStep proper.toInt_size (by omega) (by omega)).2
      exact .inl ⟨⟨by omega, room⟩, _, rfl, rfl, by simp only [sum]; omega, rfl, rfl⟩
    · rw [if_neg room]
      exact .inr ⟨fun fits => room fits.2, _, rfl⟩
  · rw [if_neg inside]
    exact .inr ⟨fun fits => inside (by omega), _, rfl⟩

theorem Converted.behindHeader (converted : Converted file before t) : noffHeaderSize ≤ t.fdOut := by
  rw [converted.position, storedSize]
  omega

/-- The section is converted when `admitted` holds, and the program exits when it does not. -/
def ConvertedIf (admitted : Prop) (file : File) (before : List ScnHdr) (t : Converter)
    (header : ScnHdr) : Prop :=
  (admitted ∧ ∃ t', convertSection file t header = .ok t' ∧ Converted file (before ++ [header]) t') ∨
    (¬ admitted ∧ ∃ failure, convertSection file t header = .error failure)

section

variable (converted : Converted file before t) (proper : header.Proper)
  (nonempty : header.size ≠ 0#32)

include converted proper nonempty

theorem Converted.text (isText : header.kind = .text) :
    ConvertedIf (Fits file before header) file before t header := by
  obtain ⟨fits, t', copied, sameHeader, inStep, fdOut, out⟩ | ⟨tooBig, failure, failed⟩ :=
    converted.copy proper nonempty
  · have result : convertSection file t header = .ok { t' with
        noffH := { t'.noffH with code := ⟨header.paddr, t.inNoffFile, header.size⟩ } } := by
      simp only [convertSection, if_neg nonempty, isText, copied, ok_bind, pure_eq]
    refine .inl ⟨fits, _, result, ?_⟩
    have texts : ofKind .text (before ++ [header]) = ofKind .text before ++ [header] :=
      ofKind_append_same isText nonempty
    have others := ofKind_append_ne before isText
    refine ⟨by rw [← converted.magic, ← sameHeader], inStep, ?_, ?_, ?_, ?_, ?_⟩
    · simp only [storedSize, texts, others .data (by decide), total_concat]
      rw [fdOut, converted.position, storedSize]
      omega
    · rw [texts, List.getLast?_concat]
      exact recorded_copy converted.inStep converted.behindHeader out fdOut
    · rw [others .data (by decide)]
      simp only [sameHeader]
      exact converted.initData.write (u := { t' with noffH := _ }) out (by simp only; omega)
    · rw [others .data (by decide)]
      exact converted.single
    · rw [others .bss (by decide)]
      simp only [sameHeader]
      exact converted.uninitData
  · refine .inr ⟨tooBig, failure, ?_⟩
    simp only [convertSection, if_neg nonempty, isText, failed, bind, Except.bind]

theorem Converted.data (isData : header.kind = .data)
    (positive : ∀ h ∈ ofKind .data before, 0 < h.count) :
    ConvertedIf (ofKind .data before = [] ∧ Fits file before header) file before t header := by
  have recorded := converted.initData
  by_cases first : ofKind .data before = []
  · rw [first, List.getLast?_nil] at recorded
    have unset : ¬ t.noffH.initData.size ≠ 0#32 := not_not.mpr recorded
    obtain ⟨fits, t', copied, sameHeader, inStep, fdOut, out⟩ | ⟨tooBig, failure, failed⟩ :=
      converted.copy proper nonempty
    · have result : convertSection file t header = .ok { t' with
          noffH := { t'.noffH with initData := ⟨header.paddr, t.inNoffFile, header.size⟩ } } := by
        simp only [convertSection, if_neg nonempty, isData, if_neg unset, copied, ok_bind, pure_eq]
      refine .inl ⟨⟨first, fits⟩, _, result, ?_⟩
      have datas : ofKind .data (before ++ [header]) = [header] := by
        rw [ofKind_append_same isData nonempty, first, List.nil_append]
      have others := ofKind_append_ne before isData
      refine ⟨by rw [← converted.magic, ← sameHeader], inStep, ?_, ?_, ?_, ?_, ?_⟩
      · simp only [storedSize, datas, others .text (by decide)]
        rw [fdOut, converted.position, storedSize, first]
        simp only [total, List.map_cons, List.map_nil, List.sum_cons, List.sum_nil]
        omega
      · rw [others .text (by decide)]
        simp only [sameHeader]
        exact converted.code.write (u := { t' with noffH := _ }) out (by simp only; omega)
      · rw [datas]
        exact recorded_copy converted.inStep converted.behindHeader out fdOut
      · rw [datas]
        exact Nat.le_refl 1
      · rw [others .bss (by decide)]
        simp only [sameHeader]
        exact converted.uninitData
    · refine .inr ⟨fun both => tooBig both.2, failure, ?_⟩
      simp only [convertSection, if_neg nonempty, isData, if_neg unset, failed, bind, Except.bind]
  · -- there is one already
    obtain ⟨last, isLast⟩ : ∃ last, (ofKind .data before).getLast? = some last :=
      Option.ne_none_iff_exists'.mp fun none => first (List.getLast?_eq_none_iff.mp none)
    rw [isLast] at recorded
    have some := positive last (List.mem_of_getLast? isLast)
    have set : t.noffH.initData.size ≠ 0#32 := by
      intro zero
      have size := recorded.1.size
      rw [zero] at size
      simp [ScnHdr.count, ← size] at some
    refine .inr ⟨fun both => first both.1, .exited "Can't handle both data and rdata\n", ?_⟩
    simp only [convertSection, if_neg nonempty, isData, if_pos set, bind, Except.bind]

theorem Converted.bss (isBss : header.kind = .bss)
    (others : ∀ h ∈ ofKind .bss before, h.Proper ∧ 0 < h.count) :
    ConvertedIf (MergesAfter before header) file before t header := by
  have merged := converted.uninitData
  have added : ofKind .bss (before ++ [header]) = ofKind .bss before ++ [header] :=
    ofKind_append_same isBss nonempty
  have same := ofKind_append_ne before isBss
  -- only `uninitData` changes
  have next : ∀ segment, Merged segment (ofKind .bss before ++ [header]) →
      Converted file (before ++ [header])
        { t with noffH := { t.noffH with uninitData := segment } } := by
    intro segment grown
    obtain ⟨magic, inStep, position, code, initData, single, -⟩ := converted
    constructor <;> simpa only [storedSize, same .text (by decide), same .data (by decide), added]
  cases earlier : ofKind .bss before with
  | nil =>
    rw [earlier] at merged next
    have unset : ¬ t.noffH.uninitData.size ≠ 0#32 := not_not.mpr merged
    have result : convertSection file t header = .ok { t with noffH := { t.noffH with
        uninitData := { t.noffH.uninitData with
          virtualAddr := header.paddr, size := header.size } } } := by
      simp only [convertSection, if_neg nonempty, isBss, if_neg unset, pure_eq]
    refine .inl ⟨by rw [MergesAfter, earlier]; trivial, _, result, next _ ⟨rfl, ?_⟩⟩
    simp only [total, List.map_cons, List.map_nil, List.sum_cons, List.sum_nil]
    rw [proper.toInt_size, Nat.add_zero]
  | cons first rest =>
    rw [earlier] at merged next
    obtain ⟨firstProper, firstCount⟩ := others first (by rw [earlier]; exact List.mem_cons_self ..)
    obtain ⟨isAddr, isSize⟩ := merged
    generalize isTotal : total ScnHdr.count (first :: rest) = size at isSize
    have beginning : t.noffH.uninitData.virtualAddr.toInt = first.begin := by
      rw [isAddr]
      rfl
    have firstNonneg : 0 ≤ first.begin := firstProper.paddr
    have long : 0 < size := by
      rw [← isTotal, total_cons]
      omega
    have set : t.noffH.uninitData.size ≠ 0#32 := by
      intro zero
      rw [zero, BitVec.toInt_zero] at isSize
      omega
    have merges : MergesAfter before header ↔
        header.begin ≠ first.begin + size ∧
          first.begin + size < 2 ^ 31 ∧ size + header.count < 2 ^ 31 := by
      rw [MergesAfter, earlier, ← isTotal]
    simp only [ConvertedIf, merges]
    simp only [convertSection, if_neg nonempty, isBss, if_pos set]
    by_cases addressable : first.begin + size < 2 ^ 31
    · obtain ⟨sum, isBehind⟩ := addInt_ok beginning isSize (by omega) addressable
      simp only [sum, ok_bind]
      by_cases follows : header.paddr =
          t.noffH.uninitData.virtualAddr + t.noffH.uninitData.size
      · rw [if_pos follows]
        have there : header.begin = first.begin + size := by
          rw [ScnHdr.begin, follows, isBehind]
        exact .inr ⟨fun apart => apart.1 there, _, rfl⟩
      · rw [if_neg follows]
        have elsewhere : header.begin ≠ first.begin + size :=
          fun there => follows (BitVec.eq_of_toInt_eq (there.trans isBehind.symm))
        by_cases small : size + header.count < 2 ^ 31
        · obtain ⟨grown, isGrown⟩ := addInt_ok isSize proper.toInt_size (by omega) (by omega)
          simp only [grown]
          have sizes : total ScnHdr.count (first :: rest ++ [header]) =
              size + header.count := isTotal ▸ total_concat ..
          refine .inl ⟨⟨elsewhere, addressable, small⟩, _, rfl, next _ ⟨isAddr, ?_⟩⟩
          exact isGrown.trans (by rw [← Nat.cast_add, ← sizes]; rfl)
        · simp only [addInt_overflow isSize proper.toInt_size (by omega)]
          exact .inr ⟨fun apart => small apart.2.2, _, rfl⟩
    · simp only [addInt_overflow beginning isSize addressable, bind, Except.bind]
      exact .inr ⟨fun apart => addressable apart.2.1, _, rfl⟩

end

end Steps

/-! ## The whole program -/

section Program

variable {file : File}

theorem mem_ofKind {sections : List ScnHdr} {header : ScnHdr} :
    header ∈ ofKind kind sections ↔
      header ∈ sections ∧ header.kind = kind ∧ header.size ≠ 0#32 := by
  simp [ofKind]

theorem Converted.start (junk : NoffHeader) : Converted file [] (.start junk file) where
  magic := rfl
  inStep := rfl
  position := rfl
  code := rfl
  initData := rfl
  single := Nat.zero_le 1
  uninitData := rfl

def Admitted (file : File) (before : List ScnHdr) (header : ScnHdr) : Prop :=
  LoadableAfter file before header ∧
    (header.kind = .bss → header.size ≠ 0#32 → MergesAfter before header)

theorem Converted.next {before after : List ScnHdr} {header : ScnHdr} {t : Converter}
    (proper : ∀ header ∈ file.sections, header.Proper)
    (split : file.sections = before ++ header :: after) (converted : Converted file before t) :
    ConvertedIf (Admitted file before header) file before t header := by
  have isProper : header.Proper := proper header (by rw [split]; simp)
  have earlier : ∀ kind, ∀ h ∈ ofKind kind before, h.Proper ∧ 0 < h.count := by
    intro kind h member
    obtain ⟨inBefore, -, nonempty⟩ := mem_ofKind.mp member
    have properH : h.Proper := proper h (by rw [split]; simp [inBefore])
    exact ⟨properH, properH.count_pos nonempty⟩
  by_cases empty : header.size = 0#32
  · refine .inl ⟨⟨fun nonempty => absurd empty nonempty, fun _ nonempty => absurd empty nonempty⟩,
      t, ?_, converted.skip empty⟩
    simp only [convertSection, if_pos empty, pure_eq]
  · cases isKind : header.kind with
    | text => simpa [Admitted, LoadableAfter, empty, isKind] using converted.text isProper empty isKind
    | data =>
      simpa [Admitted, LoadableAfter, empty, isKind] using
        converted.data isProper empty isKind fun h member => (earlier .data h member).2
    | bss =>
      simpa [Admitted, LoadableAfter, empty, isKind] using
        converted.bss isProper empty isKind (earlier .bss)
    | unknown =>
      refine .inr ⟨fun both => ?_, .exited ("Unknown segment type: " ++ header.nameString ++ "\n"), ?_⟩
      · simpa [LoadableAfter, empty, isKind] using both.1
      · simp only [convertSection, if_neg empty, isKind]

/-- The program accepts the loadable files whose `.bss` and `.sbss` sections pass its test. -/
theorem coff2noff_cases (junk : NoffHeader) (proper : ∀ header ∈ file.sections, header.Proper) :
    (∃ t, coff2noff junk file =
        .ok (t.out.write (bytesOf t.noffH.word) noffHeaderSize 0) ∧
      Converted file file.sections t ∧ Loadable file ∧ Merges file) ∨
    ∃ failure, coff2noff junk file = .error failure ∧ ¬ (Loadable file ∧ Merges file) := by
  by_cases headers : HasHeaders file
  · obtain ⟨length, fileMagic, systemMagic⟩ := headers
    have first : readChecked file 0 filehdrSize = .ok (0 + filehdrSize) := by
      rw [readChecked_eq, if_pos (by omega)]
    have second : readChecked file filehdrSize aouthdrSize = .ok (filehdrSize + aouthdrSize) := by
      rw [readChecked_eq, if_pos (by omega)]
    have third : readChecked file (filehdrSize + aouthdrSize) (file.numsections * scnhdrSize : Nat) =
        .ok (filehdrSize + aouthdrSize + file.numsections * scnhdrSize) := by
      rw [readChecked_eq, if_pos (by omega)]
    simp only [coff2noff, first, second, third, fileMagic, systemMagic, ne_eq, not_true_eq_false,
      if_false, ok_bind, pure_eq]
    obtain ⟨t, done, converted, each⟩ | ⟨failure, failed, before, header, after, split, rejected⟩ :=
      foldlM_cases (Converted file) (Admitted file) (fun _ _ _ _ split => Converted.next proper split)
        (List.nil_append _).symm (Converted.start junk) (fun _ _ _ _ shorter => by simp at shorter)
    · rw [done]
      exact .inl ⟨t, rfl, converted, ⟨⟨length, fileMagic, systemMagic⟩,
        fun before header after split => (each before header after split).1⟩,
        fun before header after split => (each before header after split).2⟩
    · rw [failed]
      exact .inr ⟨failure, rfl, fun both => rejected
        ⟨both.1.2 before header after split, both.2 before header after split⟩⟩
  · cases result : coff2noff junk file with
    | error failure => exact .inr ⟨failure, rfl, fun both => headers both.1.1⟩
    | ok out =>
      -- every check has been passed
      simp only [coff2noff, readChecked_eq] at result
      by_cases fileMagic : file.short 0 = mipselMagic
      · by_cases systemMagic : file.short filehdrSize = omagic
        · simp only [fileMagic, systemMagic, ne_eq, not_true_eq_false, if_false, bind_eq_ok] at result
          obtain ⟨_, first, _, second, _, third, -⟩ := result
          split at first <;> split at second <;> split at third <;> simp at *
          exact absurd ⟨by omega, fileMagic, systemMagic⟩ headers
        · simp [systemMagic, fileMagic, bind_eq_ok] at result
      · simp [fileMagic, bind_eq_ok] at result

/-! ### The image -/

theorem decodeHeader_eq {bytes : Nat → Byte} {noffH : NoffHeader}
    (same : ∀ i < noffHeaderSize, bytes i = bytesOf noffH.word i) :
    decodeHeader false bytes = noffH := by
  have word : ∀ k < 10, wordsOf bytes k = noffH.word k :=
    fun k below => wordsOf_eq fun i _ upper => same i (by simp only [noffHeaderSize]; omega)
  have fields : decodeHeader false bytes =
      ⟨wordsOf bytes 0, ⟨wordsOf bytes 1, wordsOf bytes 2, wordsOf bytes 3⟩,
        ⟨wordsOf bytes 4, wordsOf bytes 5, wordsOf bytes 6⟩,
        ⟨wordsOf bytes 7, wordsOf bytes 8, wordsOf bytes 9⟩⟩ := rfl
  rw [fields, word 0 (by decide), word 1 (by decide), word 2 (by decide), word 3 (by decide),
    word 4 (by decide), word 5 (by decide), word 6 (by decide), word 7 (by decide),
    word 8 (by decide), word 9 (by decide)]
  rfl

theorem readHeader_write (out : File) {noffH : NoffHeader}
    (magic : noffH.noffMagic = noffMagicNumber) :
    readHeader false (out.write (bytesOf noffH.word) noffHeaderSize 0) = .ok noffH := by
  generalize isWritten : out.write (bytesOf noffH.word) noffHeaderSize 0 = written
  have long : min (noffHeaderSize : Int).toNat (written.length - (0 : Int).toNat) = noffHeaderSize := by
    simp [← isWritten, File.write]
  have read : written.readAt (fun _ => 0#8) noffHeaderSize 0 =
      .ok (_, (min (noffHeaderSize : Int).toNat (written.length - (0 : Int).toNat) : Nat)) :=
    File.readAt_eq_ok.mpr ⟨le_refl 0, .inr ⟨Int.natCast_nonneg noffHeaderSize, rfl, rfl⟩⟩
  rw [long] at read
  have decoded : decodeHeader false
      (fun i => if i < noffHeaderSize then written.bytes ((0 : Int).toNat + i) else 0#8) = noffH := by
    refine decodeHeader_eq fun i below => ?_
    simp [← isWritten, File.write, below]
  simp only [readHeader, read, decoded, bind, Except.bind, assert, pure_eq]
  simp [magic]

theorem Recorded.header {t : Converter} {segment : Segment} {header : ScnHdr} {source : Nat → Byte}
    (recorded : Recorded file t segment (some header)) :
    Holds file (t.out.write source noffHeaderSize 0) segment header := by
  obtain ⟨⟨virtualAddr, size, bytes⟩, behind, -⟩ := recorded
  refine ⟨virtualAddr, size, fun i below => ?_⟩
  rw [← bytes i below]
  exact if_neg (by omega)

theorem Converted.sameImage_iff {t : Converter} (converted : Converted file file.sections t)
    (proper : ∀ header ∈ file.sections, header.Proper) :
    SameImage file (t.out.write (bytesOf t.noffH.word) noffHeaderSize 0) ↔
      TextsAgree file ∧ Tiles (ofKind .bss file.sections) := by
  have bss : (∀ a : Int, Covers ScnHdr.begin ScnHdr.count (ofKind .bss file.sections) a ↔
      t.noffH.uninitData.virtualAddr.toInt ≤ a ∧
        a < t.noffH.uninitData.virtualAddr.toInt + t.noffH.uninitData.size.toInt) ↔
      Tiles (ofKind .bss file.sections) := by
    have merged := converted.uninitData
    have positive : ∀ header ∈ ofKind .bss file.sections, 0 < header.count := by
      intro header member
      obtain ⟨inFile, -, nonempty⟩ := mem_ofKind.mp member
      exact (proper header inFile).count_pos nonempty
    cases sections : ofKind .bss file.sections with
    | nil =>
      rw [sections] at merged
      have none : t.noffH.uninitData.size.toInt = 0 := by
        rw [merged]
        rfl
      simp only [Tiles, Covers, List.not_mem_nil, false_and, exists_false, none, iff_true, false_iff]
      omega
    | cons first rest =>
      rw [sections] at merged positive
      obtain ⟨isAddr, isSize⟩ := merged
      rw [isAddr, isSize]
      exact covers_interval_iff positive
  have datas : (∀ header ∈ ofKind .data file.sections,
      Holds file (t.out.write (bytesOf t.noffH.word) noffHeaderSize 0)
        t.noffH.initData header) ∧
      (ofKind .data file.sections = [] → t.noffH.initData.size = 0#32) := by
    have recorded := converted.initData
    have single := converted.single
    cases sections : ofKind .data file.sections with
    | nil =>
      rw [sections] at recorded
      exact ⟨fun header member => by simp at member, fun _ => recorded⟩
    | cons first rest =>
      rw [sections] at recorded single
      obtain rfl : rest = [] := List.length_eq_zero_iff.mp (by simpa using single)
      refine ⟨fun header member => ?_, fun none => by simp at none⟩
      obtain rfl := List.mem_singleton.mp member
      exact recorded.header
  have read := readHeader_write t.out converted.magic
  have recorded := converted.code
  constructor
  · rintro ⟨noffH, readBack, texts, -, -, -, covers⟩
    cases read.symm.trans readBack
    refine ⟨fun header member other member' => ?_, bss.mp covers⟩
    have holds := texts header member
    have holds' := texts other member'
    have sameSize : other.size = header.size := holds'.size.symm.trans holds.size
    have sameCount : other.count = header.count := by rw [ScnHdr.count, sameSize, ScnHdr.count]
    refine ⟨holds'.virtualAddr.symm.trans holds.virtualAddr, sameSize, fun i below => ?_⟩
    rw [← holds.bytes i below, ← holds'.bytes i (by omega)]
  · rintro ⟨agree, tiles⟩
    refine ⟨t.noffH, read, fun header member => ?_, fun none => ?_, datas.1, datas.2, bss.mpr tiles⟩
    · -- the last `.text` section is recorded, and this one is the same
      cases isLast : (ofKind .text file.sections).getLast? with
      | none =>
        rw [List.getLast?_eq_none_iff.mp isLast] at member
        cases member
      | some last =>
        rw [isLast] at recorded
        have holds : Holds file (t.out.write
          (bytesOf t.noffH.word) noffHeaderSize 0) t.noffH.code last :=
          recorded.header
        obtain ⟨addr, size, bytes⟩ := agree header member last (List.mem_of_getLast? isLast)
        have sameCount : last.count = header.count := by rw [ScnHdr.count, size, ScnHdr.count]
        refine ⟨holds.virtualAddr.trans addr, holds.size.trans size, fun i below => ?_⟩
        rw [holds.bytes i (by omega), bytes i below]
    · rw [none] at recorded
      exact recorded

/-! ### `.bss` and `.sbss` -/

/-- Of two sections that follow each other the second does not pass the test. -/
theorem merges_iff_of_contiguous (contiguous : Contiguous (ofKind .bss file.sections)) :
    Merges file ↔ (ofKind .bss file.sections).length ≤ 1 := by
  constructor
  · intro merges
    cases sections : ofKind .bss file.sections with
    | nil => simp
    | cons first others =>
      cases others with
      | nil => simp
      | cons second rest =>
        rw [sections] at contiguous
        obtain ⟨before, between, isSections, noneBefore, isFirst, others⟩ :=
          List.filter_eq_cons_iff.mp sections
        obtain ⟨middle, after, isRest, noneMiddle, isSecond, -⟩ := List.filter_eq_cons_iff.mp others
        have split : file.sections = (before ++ first :: middle) ++ second :: after := by
          rw [isSections, isRest, List.append_assoc]
          rfl
        have single : ofKind .bss (before ++ first :: middle) = [first] := by
          rw [ofKind, List.filter_append, List.filter_eq_nil_iff.mpr noneBefore, List.nil_append,
            List.filter_cons, if_pos isFirst, List.filter_eq_nil_iff.mpr noneMiddle]
        simp only [Bool.and_eq_true, decide_eq_true_eq] at isSecond
        have passes := merges _ second after split isSecond.1 isSecond.2
        rw [MergesAfter, single] at passes
        -- the second starts where the first ends
        obtain ⟨-, follows, -⟩ := contiguous
        exact absurd follows passes.1
  · intro few before header after split isBss nonempty
    have member : ofKind .bss file.sections =
        ofKind .bss before ++ header :: ofKind .bss after := by
      rw [split]
      simp [ofKind, List.filter_append, isBss, nonempty]
    have none : ofKind .bss before = [] := by
      rw [member, List.length_append, List.length_cons] at few
      exact List.length_eq_zero_iff.mp (by omega)
    rw [MergesAfter, none]
    trivial

end Program

/-- `coff2noff` keeps the image of every file that it accepts, and accepts a file whose `.bss` and
`.sbss` sections follow each other, exactly when this holds of a file without other faults: at most
one section is `.bss` or `.sbss` if they follow each other; and if the program merges them, they
follow each other in another order than in the file, and all `.text` sections are the same. -/
theorem coff2noff_exact_iff (junk : NoffHeader) (file : File)
    (proper : ∀ header ∈ file.sections, header.Proper) :
    ConvertsExactly junk file ↔
      (Loadable file →
        (Contiguous (ofKind .bss file.sections) → (ofKind .bss file.sections).length ≤ 1) ∧
        (Merges file → TextsAgree file ∧ Tiles (ofKind .bss file.sections))) := by
  obtain ⟨t, accepted, converted, loadable, merges⟩ | ⟨failure, failed, rejected⟩ :=
    coff2noff_cases junk proper
  · have image := converted.sameImage_iff proper
    constructor
    · rintro ⟨keeps, -⟩ -
      exact ⟨fun contiguous => (merges_iff_of_contiguous contiguous).mp merges,
        fun _ => image.mp (keeps _ accepted)⟩
    · intro condition
      refine ⟨fun out done => ?_, fun _ _ => ⟨_, accepted⟩⟩
      cases accepted.symm.trans done
      exact image.mpr ((condition loadable).2 merges)
  · constructor
    · rintro ⟨-, accepts⟩ loadable
      refine ⟨fun contiguous => ?_, fun merges => absurd ⟨loadable, merges⟩ rejected⟩
      obtain ⟨out, accepted⟩ := accepts loadable contiguous
      cases failed.symm.trans accepted
    · intro condition
      refine ⟨fun out accepted => ?_, fun loadable contiguous => ?_⟩
      · cases failed.symm.trans accepted
      · have merges := (merges_iff_of_contiguous contiguous).mpr ((condition loadable).1 contiguous)
        exact absurd ⟨loadable, merges⟩ rejected

/-! ## Files -/

def littleEndian (n value : Nat) : List Byte :=
  (List.range n).map fun k => BitVec.ofNat 8 (value / 256 ^ k)

def scnhdrBytes (name : String) (paddr size scnptr : Nat) : List Byte :=
  (List.range 8).map (fun k => BitVec.ofNat 8 ((name.toList.map Char.toNat).getD k 0)) ++
    littleEndian 4 paddr ++ littleEndian 4 paddr ++ littleEndian 4 size ++ littleEndian 4 scnptr ++
    List.replicate 16 0#8

def coffFile (headers : List (List Byte)) : File :=
  let bytes := littleEndian 2 mipselMagic.toNat ++ littleEndian 2 headers.length ++
    List.replicate 16 0#8 ++ littleEndian 2 omagic.toNat ++ List.replicate 54 0#8 ++ headers.flatten
  { length := bytes.length
    bytes := fun i => bytes.getD i 0#8
    zeroPastEnd := fun i past => by
      rw [List.getD_eq_getElem?_getD, List.getElem?_eq_none past]
      rfl }

def oneBss : File :=
  coffFile [scnhdrBytes ".text" 0 8 0, scnhdrBytes ".data" 8 4 20, scnhdrBytes ".bss" 12 100 0]

instance (header : ScnHdr) : Decidable header.Proper :=
  decidable_of_iff (0 ≤ header.paddr.toInt ∧ 0 ≤ header.size.toInt ∧ 0 ≤ header.scnptr.toInt)
    ⟨fun ⟨paddr, size, scnptr⟩ => ⟨paddr, size, scnptr⟩,
      fun proper => ⟨proper.paddr, proper.size, proper.scnptr⟩⟩

theorem oneBss_converts : ConvertsExactly (linkedHeader 0 0 0) oneBss := by
  have proper : ∀ header ∈ oneBss.sections, header.Proper := by decide +kernel
  have single : (ofKind .bss oneBss.sections).length = 1 := by decide +kernel
  have text : (ofKind .text oneBss.sections).length = 1 := by decide +kernel
  refine (coff2noff_exact_iff _ oneBss proper).mpr fun _ =>
    ⟨fun _ => by omega, fun _ => ⟨?_, ?_⟩⟩
  · obtain ⟨only, isOnly⟩ := List.length_eq_one_iff.mp text
    intro header member other member'
    rw [isOnly] at member member'
    obtain rfl := List.mem_singleton.mp member
    obtain rfl := List.mem_singleton.mp member'
    exact ⟨rfl, rfl, fun _ _ => rfl⟩
  · obtain ⟨only, isOnly⟩ := List.length_eq_one_iff.mp single
    rw [isOnly]
    exact ⟨[only], .refl _, rfl, trivial⟩

def adjacentBss : File := coffFile [scnhdrBytes ".bss" 100 8 0, scnhdrBytes ".sbss" 108 8 0]

def separateBss : File := coffFile [scnhdrBytes ".bss" 100 8 0, scnhdrBytes ".sbss" 200 8 0]

/-- The first file is refused.  The second is accepted, and its segment has 8 bytes that belong to
neither section while it misses the second section. -/
theorem contiguous_bss_refused :
    Contiguous (ofKind .bss adjacentBss.sections) ∧
    coff2noff (linkedHeader 0 0 0) adjacentBss = .error (.exited "Can't handle both bss and sbss\n") ∧
    ∃ out noffH, coff2noff (linkedHeader 0 0 0) separateBss = .ok out ∧
      readHeader false out = .ok noffH ∧ noffH.uninitData.virtualAddr = 100#32 ∧
      noffH.uninitData.size = 16#32 := by
  obtain ⟨out, accepted, noffH, read, addr, size⟩ :
      ∃ out, coff2noff (linkedHeader 0 0 0) separateBss = .ok out ∧
        ∃ noffH, readHeader false out = .ok noffH ∧ noffH.uninitData.virtualAddr = 100#32 ∧
          noffH.uninitData.size = 16#32 := by decide +kernel
  exact ⟨by decide +kernel, by decide +kernel, out, noffH, accepted, read, addr, size⟩

end Nachos
