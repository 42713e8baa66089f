import Afterburner.Lib.Bits
import Afterburner.Resourcemon.Modules

/-!
# An ELF file, as it is loaded

`elf_load` and `install_elf_binary` over the headers of the file. Of a segment the first and the
last address are translated, the last one from its size in memory.
-/

namespace Resourcemon
open List Bits BitVec

structure Phdr where
  type : Word
  vaddr : Word
  fsize : Word
  msize : Word

structure Section where
  name : String
  addr : Word
  size : Word
  deriving DecidableEq

structure ElfFile where
  ident : ℕ → BitVec 8
  type : BitVec 16
  entry : Word
  phoff : Word
  phdrs : List Phdr
  sections : List Section

variable (ph : Phdr) (s : Section) (f : ElfFile) (vm : Vm)

def ptLoad : Word := 1

def ElfFile.elfIsValid : Bool :=
  f.ident 0 = 0x7f && f.ident 1 = 0x45 && f.ident 2 = 0x4c && f.ident 3 = 0x46

def ElfFile.elfSectionDescribe (searchName : String) : Option Section :=
  f.sections.find? fun s => s.name = searchName

def ElfFile.placeWedge : Vm :=
  { vm with
    wedgeVaddr := if vm.wedgePaddr ≠ 0 then f.entry - (f.entry &&& (0x4000000 - 1))
      else vm.wedgeVaddr }

def Phdr.writes (haddr : Word) : List HostRange :=
  [⟨haddr.toNat, ph.fsize.toNat⟩, ⟨(haddr + ph.fsize).toNat, (ph.msize - ph.fsize).toNat⟩]

def loadSegments (vm : Vm) (minAddr maxAddr : Word) :
    List Phdr → Option (Word × Word) × List HostRange
  | [] => (some (minAddr, maxAddr), [])
  | ph :: phs =>
    if ph.type = ptLoad then
      match vm.clientVaddrToHaddr ph.vaddr, vm.clientVaddrToHaddr (ph.vaddr + ph.msize - 1) with
      | some haddr, some _ =>
        let size := if ph.msize < ph.fsize then ph.fsize else ph.msize
        let minAddr := if ph.vaddr < minAddr then ph.vaddr else minAddr
        let maxAddr := if maxAddr < ph.vaddr + size then ph.vaddr + size else maxAddr
        let r := loadSegments vm minAddr maxAddr phs
        (r.1, ph.writes haddr ++ r.2)
      | _, _ => (none, [])
    else loadSegments vm minAddr maxAddr phs

namespace ElfFile

def elfLoad : Option (Word × Word) × List HostRange :=
  if f.elfIsValid = false ∨ f.type ≠ 2 then (none, [])
  else if f.phoff = 0 then (none, [])
  else loadSegments (f.placeWedge vm) (~~~ 0) 0 f.phdrs

def sizeBits (size : Word) : ℕ :=
  if 2 ^ msb size < size.toNat then msb size + 1 else msb size

theorem sizeBits_le (size : Word) : sizeBits size ≤ 32 := by
  have hle : msb size ≤ 31 := Nat.findGreatest_le 31
  unfold sizeBits
  split_ifs <;> omega

def area (name : String) (location : Word) (bits : ℕ) (binaryStartVaddr : Word) :
    Option Fpage :=
  let place :=
    match f.elfSectionDescribe name with
    | some s => some (s.addr, s.size)
    | none =>
      if location + (1 <<< bits) > binaryStartVaddr then none else some (location, 1 <<< bits)
  place.bind fun (start, size) =>
    let fp := Fpage.log2 start (sizeBits size) (sizeBits_le size)
    if fp.base ≠ start then none else some fp

def kip (binaryStartVaddr : Word) : Option Fpage :=
  f.area ".l4kip" 0x300000 14 binaryStartVaddr

def utcb (binaryStartVaddr : Word) : Option Fpage :=
  f.area ".l4utcb" 0x304000 14 binaryStartVaddr

def endTranslates (s : Section) : Bool :=
  (vm.clientVaddrToHaddr s.addr).isSome || (vm.clientVaddrToHaddr (s.addr + s.size - 1)).isSome

def sharedOk (sizeofShared : Word) (vm : Vm) : Bool :=
  match f.elfSectionDescribe ".resourcemon" with
  | none => true
  | some s =>
    if s.size < sizeofShared then false
    else if endTranslates vm s = false then false
    else s.size = sizeofShared

def startupOk : Bool :=
  match f.elfSectionDescribe ".resourcemon.startup" with
  | none => true
  | some s => if s.size < 12 then false else endTranslates vm s

def installElfBinary (sizeofShared : Word) (vm : Vm) : Option Vm :=
  match (f.elfLoad vm).1 with
  | none => none
  | some (binaryStartVaddr, _) =>
    match f.kip binaryStartVaddr, f.utcb binaryStartVaddr with
    | some kipFp, some utcbFp =>
      if f.sharedOk sizeofShared (f.placeWedge vm) && f.startupOk (f.placeWedge vm) then
        some { f.placeWedge vm with kipFp := kipFp, utcbFp := utcbFp }
      else none
    | _, _ => none

end ElfFile

def Vm.hostBytes : Set ℕ :=
  Set.Ico vm.haddrBase.toNat (vm.haddrBase.toNat + vm.paddrLen.toNat)

def Section.Inside : Prop :=
  ∀ j < s.size.toNat, ∃ haddr, vm.clientVaddrToHaddr (s.addr + BitVec.ofNat 32 j) = some haddr ∧
    haddr.toNat ∈ vm.hostBytes

def usedSections : List String := [".resourcemon", ".resourcemon.startup"]

/-- **What is asked of the loader.** -/
structure ElfFile.Confined (sizeofShared : Word) (vm : Vm) : Prop where
  writes : ∀ r ∈ (f.elfLoad vm).2, r.bytes ⊆ vm.hostBytes
  sections : ∀ vm', f.installElfBinary sizeofShared vm = some vm' →
    ∀ name ∈ usedSections, ∀ s, f.elfSectionDescribe name = some s → s.Inside vm'

/-- The segments, as `load_current_module` sees them. -/
def ElfFile.segments : List Segment :=
  (f.phdrs.filter fun ph => ph.type = ptLoad).map fun ph => ⟨ph.vaddr, ph.fsize, ph.msize⟩

def ElfFile.image (kipFp utcbFp : Fpage) (wedgePhysSize : Option Word) : Image :=
  ⟨f.entry, f.segments, kipFp, utcbFp, wedgePhysSize⟩

def Vm.segmentTranslates (ph : Phdr) : Bool :=
  (vm.clientVaddrToHaddr ph.vaddr).isSome &&
    (vm.clientVaddrToHaddr (ph.vaddr + ph.msize - 1)).isSome

/-- Over the headers of the file and over the segments the loop is the same. -/
theorem loadSegments_fst (lo hi : Word) (phs : List Phdr) :
    (loadSegments vm lo hi phs).1 = (elfLoad vm lo hi ((phs.filter fun ph => ph.type = ptLoad).map
      fun ph => ⟨ph.vaddr, ph.fsize, ph.msize⟩)).map fun r => (r.1, r.2.1) := by
  induction phs generalizing lo hi with
  | nil => rfl
  | cons ph phs ih =>
    rw [loadSegments]
    by_cases htype : ph.type = ptLoad
    · rw [filter_cons_of_pos (by simpa using htype), if_pos htype, map_cons, elfLoad]
      dsimp only
      cases vm.clientVaddrToHaddr ph.vaddr with
      | none => rfl
      | some haddr =>
        cases vm.clientVaddrToHaddr (ph.vaddr + ph.msize - 1) with
        | none => rfl
        | some haddr2 =>
          dsimp only
          rw [ih, Option.map_map]
          rfl
    · rw [filter_cons_of_neg (by simpa using htype), if_neg htype, ih]

theorem loadSegments_isSome_iff (lo hi : Word) (phs : List Phdr) :
    (loadSegments vm lo hi phs).1.isSome = true ↔
      ∀ ph ∈ phs, ph.type = ptLoad → vm.segmentTranslates ph = true := by
  induction phs generalizing lo hi with
  | nil => simp [loadSegments]
  | cons ph phs ih =>
    rw [loadSegments, forall_mem_cons]
    by_cases htype : ph.type = ptLoad
    · rw [if_pos htype, Vm.segmentTranslates]
      cases vm.clientVaddrToHaddr ph.vaddr with
      | none => simp [htype]
      | some haddr =>
        cases vm.clientVaddrToHaddr (ph.vaddr + ph.msize - 1) with
        | none => simp [htype]
        | some haddr2 => simpa [htype] using ih _ _
    · rw [if_neg htype, ih]
      simp [htype]

namespace ElfFile
variable {f} {sizeofShared : Word} {vm} {vm' : Vm}

def Loadable (f : ElfFile) : Prop := f.elfIsValid = true ∧ f.type = 2 ∧ f.phoff ≠ 0

theorem elfLoad_of_loadable (h : f.Loadable) :
    f.elfLoad vm = loadSegments (f.placeWedge vm) (~~~ 0) 0 f.phdrs := by
  rw [elfLoad, if_neg (by simp [h.1, h.2.1]), if_neg h.2.2]

theorem elfLoad_of_not_loadable (h : ¬ f.Loadable) : f.elfLoad vm = (none, []) := by
  unfold Loadable at h
  unfold elfLoad
  split_ifs <;> simp_all

/-- The lowest address of the segments. -/
def binaryStartVaddr (f : ElfFile) : Word :=
  f.segments.foldl (fun lo ph => if ph.vaddr < lo then ph.vaddr else lo) (~~~ 0)

theorem elfLoad_start {lo hi a b : Word} {segs : List Segment} {elf : List HostRange}
    (h : Resourcemon.elfLoad vm lo hi segs = some (a, b, elf)) :
    a = segs.foldl (fun lo ph => if ph.vaddr < lo then ph.vaddr else lo) lo := by
  induction segs generalizing lo hi elf with
  | nil =>
    cases h
    rfl
  | cons ph phs ih =>
    unfold Resourcemon.elfLoad at h
    split at h
    · obtain ⟨⟨a', b', elf'⟩, hrec, heq⟩ := Option.map_eq_some_iff.1 h
      cases heq
      exact ih hrec
    · cases h

/-- The checks of `install_elf_binary`: the header, every segment, the areas for the KIP and the
UTCBs, the sections. -/
structure Accepted (f : ElfFile) (sizeofShared : Word) (vm : Vm) : Prop where
  loadable : f.Loadable
  segments : ∀ ph ∈ f.phdrs, ph.type = ptLoad → (f.placeWedge vm).segmentTranslates ph = true
  kip : (f.kip f.binaryStartVaddr).isSome = true
  utcb : (f.utcb f.binaryStartVaddr).isSome = true
  shared : f.sharedOk sizeofShared (f.placeWedge vm) = true
  startup : f.startupOk (f.placeWedge vm) = true

theorem elfLoad_fst (f : ElfFile) (vm : Vm) : (∃ hi, (f.elfLoad vm).1 = some (lo, hi)) ↔
    (f.Loadable ∧ ∀ ph ∈ f.phdrs, ph.type = ptLoad →
      (f.placeWedge vm).segmentTranslates ph = true) ∧ lo = f.binaryStartVaddr := by
  by_cases hload : f.Loadable
  · rw [elfLoad_of_loadable hload, ← loadSegments_isSome_iff _ (~~~ 0) 0, and_iff_right hload,
      loadSegments_fst]
    cases hsegs : Resourcemon.elfLoad (f.placeWedge vm) (~~~ 0) 0 ((f.phdrs.filter fun ph =>
        ph.type = ptLoad).map fun ph => ⟨ph.vaddr, ph.fsize, ph.msize⟩) with
    | none => simp
    | some r =>
      obtain ⟨a, b, elf⟩ := r
      have ha := elfLoad_start hsegs
      simp only [Option.map_some, Option.some.injEq, Prod.mk.injEq, exists_and_left, exists_eq',
        and_true, Option.isSome_some, true_and]
      rw [ha, eq_comm]
      rfl
  · rw [elfLoad_of_not_loadable hload]
    simp [hload]

/-- A file is installed exactly when it passes the checks. -/
theorem installElfBinary_eq_some_iff :
    f.installElfBinary sizeofShared vm = some vm' ↔ f.Accepted sizeofShared vm ∧
      ∃ kipFp utcbFp, f.kip f.binaryStartVaddr = some kipFp ∧
        f.utcb f.binaryStartVaddr = some utcbFp ∧
        vm' = { f.placeWedge vm with kipFp := kipFp, utcbFp := utcbFp } := by
  unfold installElfBinary
  cases hload : (f.elfLoad vm).1 with
  | none =>
    refine iff_of_false (by simp) fun ⟨h, _⟩ => ?_
    obtain ⟨hi, hsome⟩ := (elfLoad_fst f vm).2 ⟨⟨h.loadable, h.segments⟩, rfl⟩
    rw [hload] at hsome
    cases hsome
  | some r =>
    obtain ⟨lo, hi⟩ := r
    obtain ⟨⟨hloadable, hsegments⟩, rfl⟩ := (elfLoad_fst f vm).1 ⟨hi, hload⟩
    dsimp only
    constructor
    · intro h
      split at h
      next kipFp utcbFp hkip hutcb =>
        split_ifs at h with hsections
        rw [Bool.and_eq_true] at hsections
        exact ⟨⟨hloadable, hsegments, by simp [hkip], by simp [hutcb], hsections.1, hsections.2⟩,
          kipFp, utcbFp, hkip, hutcb, (Option.some.inj h).symm⟩
      next => cases h
    · rintro ⟨h, kipFp, utcbFp, hkip, hutcb, rfl⟩
      simp [hkip, hutcb, h.shared, h.startup]

/-- What a file is installed as is what `load_current_module` has for its image. -/
theorem installElfBinary_image (h : f.installElfBinary sizeofShared vm = some vm') :
    ∃ kipFp utcbFp, ∀ wedgePhysSize,
      (Resourcemon.installElfBinary vm (f.image kipFp utcbFp wedgePhysSize)).map
        (fun r => r.1.vm) = some vm' := by
  obtain ⟨haccepted, kipFp, utcbFp, hkip, hutcb, rfl⟩ := installElfBinary_eq_some_iff.1 h
  refine ⟨kipFp, utcbFp, fun wedgePhysSize => ?_⟩
  have hload := (loadSegments_isSome_iff ((f.image kipFp utcbFp wedgePhysSize).place vm) (~~~ 0) 0
    f.phdrs).2 haccepted.segments
  rw [loadSegments_fst, Option.isSome_map] at hload
  obtain ⟨r, hr⟩ := Option.isSome_iff_exists.1 hload
  unfold Resourcemon.installElfBinary
  rw [Option.map_map, Option.map_eq_some_iff]
  exact ⟨r, hr, rfl⟩

end ElfFile

theorem HostRange.bytes_subset_Ico_iff (r : HostRange) (a b : ℕ) :
    r.bytes ⊆ Set.Ico a b ↔ r.size = 0 ∨ a ≤ r.start ∧ r.start + r.size ≤ b := by
  by_cases hsize : r.size = 0
  · simp [HostRange.bytes, hsize]
  · rw [HostRange.bytes, Set.Ico_subset_Ico_iff (by omega), or_iff_right hsize]

def Phdr.Fits : Prop :=
  ph.fsize.toNat ≤ ph.msize.toNat ∧
    (vm.loadPaddr ph.vaddr).toNat + ph.msize.toNat ≤ vm.paddrLen.toNat

instance  : Decidable (ph.Fits vm) := inferInstanceAs (Decidable (_ ∧ _))

theorem Phdr.write_inside_iff {ph : Phdr} {vm : Vm} {haddr : Word}
    (h : vm.clientVaddrToHaddr ph.vaddr = some haddr) :
    (∀ r ∈ ph.writes haddr, r.bytes ⊆ vm.hostBytes) ↔ ph.Fits vm := by
  rw [Vm.clientVaddrToHaddr_eq] at h
  obtain ⟨hlt, hstart⟩ := Vm.clientPaddrToHaddr_eq_some.1 h
  have hfits := vm.fits
  have hzero : (haddr + ph.fsize).toNat = (haddr.toNat + ph.fsize.toNat) % 2 ^ 32 :=
    BitVec.toNat_add _ _
  have hdiff : (ph.msize - ph.fsize).toNat =
      (2 ^ 32 - ph.fsize.toNat + ph.msize.toNat) % 2 ^ 32 := BitVec.toNat_sub _ _
  simp only [Phdr.writes, forall_mem_cons, not_mem_nil, false_imp_iff, implies_true,
    and_true, Vm.hostBytes, HostRange.bytes_subset_Ico_iff, Phdr.Fits]
  omega

def ElfFile.copied : List Phdr :=
  (f.phdrs.filter fun ph => ph.type = ptLoad).takeWhile (f.placeWedge vm).segmentTranslates

theorem loadSegments_inside_iff (lo hi : Word) (phs : List Phdr) :
    (∀ r ∈ (loadSegments vm lo hi phs).2, r.bytes ⊆ vm.hostBytes) ↔
      ∀ ph ∈ (phs.filter fun ph => ph.type = ptLoad).takeWhile vm.segmentTranslates,
        ph.Fits vm := by
  induction phs generalizing lo hi with
  | nil => simp [loadSegments]
  | cons ph phs ih =>
    rw [loadSegments]
    by_cases htype : ph.type = ptLoad
    · rw [filter_cons_of_pos (by simpa using htype), if_pos htype]
      cases hstart : vm.clientVaddrToHaddr ph.vaddr with
      | none => simp [Vm.segmentTranslates, hstart, takeWhile_cons_of_neg]
      | some haddr =>
        cases hend : vm.clientVaddrToHaddr (ph.vaddr + ph.msize - 1) with
        | none =>
          have hfails : ¬ vm.segmentTranslates ph = true := by rw [Vm.segmentTranslates, hend]; simp
          rw [takeWhile_cons_of_neg hfails]
          simp
        | some haddr2 =>
          have hpasses : vm.segmentTranslates ph = true := by
            rw [Vm.segmentTranslates, hstart, hend]
            rfl
          rw [takeWhile_cons_of_pos hpasses, forall_mem_cons, forall_mem_append,
            Phdr.write_inside_iff hstart, ih]
    · rw [filter_cons_of_neg (by simpa using htype), if_neg htype, ih]

/-- The bytes at which a new piece of the section begins: its first one, the one at the virtual
address of the wedge, and the one at address 0. -/
def Section.Starts (j : ℕ) : Prop :=
  j = 0 ∨ s.addr + BitVec.ofNat 32 j = 0 ∨
    vm.wedgePaddr ≠ 0 ∧ s.addr + BitVec.ofNat 32 j = vm.wedgeVaddr

/-- Each piece of the section, from where it begins to the next one or the end, is inside the VM. -/
def Section.InPieces : Prop :=
  ∀ j k, j + k < s.size.toNat → s.Starts vm j → (∀ i, j < i → i ≤ j + k → ¬ s.Starts vm i) →
    (vm.loadPaddr (s.addr + BitVec.ofNat 32 j)).toNat + k < vm.paddrLen.toNat

section Pieces
variable {s} {vm} {j k : ℕ}

theorem loadPaddr_succ (h : ¬ s.Starts vm (j + 1)) :
    vm.loadPaddr (s.addr + BitVec.ofNat 32 (j + 1)) =
      vm.loadPaddr (s.addr + BitVec.ofNat 32 j) + 1 := by
  have hsucc : s.addr + BitVec.ofNat 32 (j + 1) = s.addr + BitVec.ofNat 32 j + 1 := by
    rw [ofNat_add, ← BitVec.add_assoc]
    rfl
  unfold Section.Starts at h
  rw [hsucc] at h ⊢
  generalize s.addr + BitVec.ofNat 32 j = x at h ⊢
  push Not at h
  obtain ⟨-, hzero, hwedge⟩ := h
  have hlt : (x + 1).toNat = x.toNat + 1 := by
    have : x.toNat + 1 ≠ 2 ^ 32 := fun heq => hzero (by bv_omega)
    bv_omega
  -- the two bytes are on the same side of the wedge
  have hside : (vm.wedgePaddr ≠ 0 ∧ x + 1 ≥ vm.wedgeVaddr) ↔
      vm.wedgePaddr ≠ 0 ∧ x ≥ vm.wedgeVaddr := by
    refine and_congr_right fun hw => ?_
    have hne : x.toNat + 1 ≠ vm.wedgeVaddr.toNat := fun heq =>
      hwedge hw (eq_of_toNat_eq (hlt.trans heq))
    rw [ge_iff_le, ge_iff_le, le_def, le_def, hlt]
    omega
  have hoffset : vm.loadOffset (x + 1) = vm.loadOffset x := by
    unfold Vm.loadOffset
    simp only [hside]
  rw [Vm.loadPaddr, Vm.loadPaddr, hoffset]
  bv_omega

/-- Inside a piece the addresses go up together. -/
theorem loadPaddr_add (h : ∀ i, j < i → i ≤ j + k → ¬ s.Starts vm i) :
    vm.loadPaddr (s.addr + BitVec.ofNat 32 (j + k)) =
      vm.loadPaddr (s.addr + BitVec.ofNat 32 j) + BitVec.ofNat 32 k := by
  induction k with
  | zero => simp
  | succ k ih =>
    rw [← Nat.add_assoc, loadPaddr_succ (h _ (by omega) (by omega)),
      ih fun i hi hik => h i hi (by omega), ofNat_add, BitVec.add_assoc]
    rfl

theorem inside_iff_forall_lt : s.Inside vm ↔ ∀ j < s.size.toNat,
    (vm.loadPaddr (s.addr + BitVec.ofNat 32 j)).toNat < vm.paddrLen.toNat := by
  refine forall₂_congr fun j _ => ?_
  rw [Vm.clientVaddrToHaddr_eq]
  constructor
  · rintro ⟨haddr, h, -⟩
    exact (Vm.clientPaddrToHaddr_eq_some.1 h).1
  · intro hlt
    obtain ⟨haddr, hsome⟩ := Option.isSome_iff_exists.1 (Vm.clientPaddrToHaddr_isSome.2 hlt)
    have hh := (Vm.clientPaddrToHaddr_eq_some.1 hsome).2
    refine ⟨haddr, hsome, ?_⟩
    rw [Vm.hostBytes, Set.mem_Ico]
    omega

theorem inside_iff_inPieces : s.Inside vm ↔ s.InPieces vm := by
  rw [inside_iff_forall_lt]
  have hlen := vm.paddrLen.isLt
  constructor
  · intro h j k hk hj hpiece
    induction k with
    | zero => exact h j (by omega)
    | succ k ih =>
      have hbefore := ih (by omega) fun i hi hik => hpiece i hi (by omega)
      have hbyte := h (j + (k + 1)) (by omega)
      rw [loadPaddr_add hpiece, BitVec.toNat_add, toNat_ofNat] at hbyte
      omega
  · intro h j
    -- go back to where the piece of byte `j` begins
    induction j with
    | zero => exact fun hj => h 0 0 hj (.inl rfl) (by omega)
    | succ j ih =>
      intro hj
      obtain ⟨i, hile, hi, hpiece⟩ : ∃ i ≤ j + 1, s.Starts vm i ∧
          ∀ i', i < i' → i' ≤ j + 1 → ¬ s.Starts vm i' := by
        classical
        refine ⟨Nat.findGreatest (s.Starts vm) (j + 1), Nat.findGreatest_le _,
          Nat.findGreatest_spec (Nat.zero_le _) (.inl rfl), fun i' hi' hle => ?_⟩
        exact Nat.findGreatest_is_greatest hi' hle
      obtain ⟨k, hk⟩ := Nat.exists_eq_add_of_le hile
      rw [hk] at hpiece hj ⊢
      have hlast := h i k hj hi hpiece
      rw [loadPaddr_add hpiece, BitVec.toNat_add, toNat_ofNat]
      omega

end Pieces

def elfFile (fsize msize sharedAddr : Word) : ElfFile where
  ident := fun i => [0x7f, 0x45, 0x4c, 0x46].getD i 0
  type := 2
  entry := 0x1000000
  phoff := 0x34
  phdrs := [⟨ptLoad, 0x1000000, fsize, msize⟩]
  sections := [⟨".resourcemon", sharedAddr, 0x1000⟩]

theorem clientVaddrToHaddr_areas (kipFp utcbFp : Fpage) (vaddr : Word) :
    ({ vm with kipFp := kipFp, utcbFp := utcbFp } : Vm).clientVaddrToHaddr vaddr =
      vm.clientVaddrToHaddr vaddr := rfl

end Resourcemon
