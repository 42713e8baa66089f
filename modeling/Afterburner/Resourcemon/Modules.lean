import Afterburner.Resourcemon.Vm
import Mathlib

/-!
# Loading a VM: the ELF binary and the modules behind it

`load_current_module` copies an ELF binary into a new VM and installs the modules that follow from
the end of the memory down.
-/
variable (vm : Vm)

namespace Resourcemon
open Option BitVec

structure Segment where
  vaddr : Word
  fsize : Word
  msize : Word

def Segment.size (ph : Segment) : Word := if ph.msize < ph.fsize then ph.fsize else ph.msize

structure Image where
  entry : Word
  segs : List Segment
  kipFp : Fpage
  utcbFp : Fpage
  wedgePhysSize : Option Word

variable (img : Image)

structure BootModule where
  size : Word
  vmstart : Bool
  cmdlineOk : Bool

structure HostRange where
  start : ℕ
  size : ℕ
  deriving DecidableEq

def HostRange.bytes (r : HostRange) : Set ℕ := Set.Ico r.start (r.start + r.size)

structure Shared where
  wedgePhysSize : Word
  moduleCount : ℕ

structure Guest where
  vm : Vm
  binaryStartVaddr : Word
  binaryEndVaddr : Word
  clientShared : Option Shared

def Image.place (vm : Vm) : Vm :=
  { vm with
    wedgeVaddr := if vm.wedgePaddr ≠ 0 then img.entry - (img.entry &&& (0x4000000 - 1))
      else vm.wedgeVaddr
    kipFp := img.kipFp
    utcbFp := img.utcbFp }

def elfLoad (vm : Vm) (minAddr maxAddr : Word) : List Segment →
    Option (Word × Word × List HostRange)
  | [] => some (minAddr, maxAddr, [])
  | ph :: phs =>
    match vm.clientVaddrToHaddr ph.vaddr, vm.clientVaddrToHaddr (ph.vaddr + ph.msize - 1) with
    | some haddr, some _ =>
      let minAddr := if ph.vaddr < minAddr then ph.vaddr else minAddr
      let maxAddr := if maxAddr < ph.vaddr + ph.size then ph.vaddr + ph.size else maxAddr
      (elfLoad vm minAddr maxAddr phs).map fun r =>
        (r.1, r.2.1, ⟨haddr.toNat, ph.size.toNat⟩ :: r.2.2)
    | _, _ => none

def installElfBinary : Option (Guest × List HostRange) :=
  (elfLoad (img.place vm) (~~~ 0) 0 img.segs).map fun r =>
    (⟨img.place vm, r.1, r.2.1, img.wedgePhysSize.map (⟨·, 0⟩)⟩, r.2.2)

def isRegionConflict (start1 end1 start2 end2 : Word) : Bool :=
  (start2 < start1 && end2 > start1) || (start2 < end1 && end2 > start1)

def isFpageConflict (fp : Fpage) (start endAddr : Word) : Bool :=
  (start < fp.base && endAddr > fp.base) || (start < fp.base + fp.size && endAddr > fp.base)

def maxModules : ℕ := 3
def pageMask : Word := ~~~ 0xfff

namespace Guest
variable (g : Guest)

def clientPaddrToVaddr (paddr : Word) : Option Word :=
  if paddr ≥ g.vm.paddrLen then none
  else if paddr ≥ g.vm.wedgePaddr ∧
      (g.clientShared.all fun sh => paddr < g.vm.wedgePaddr + sh.wedgePhysSize) then
    some (paddr + g.vm.wedgeVaddr)
  else some (paddr + g.vm.vaddrOffset)

def enterModule (cmdlineOk : Bool) : Option Guest :=
  match g.clientShared with
  | none => some g
  | some sh =>
    if sh.moduleCount ≥ maxModules ∨ cmdlineOk = false then none
    else some { g with clientShared := some { sh with moduleCount := sh.moduleCount + 1 } }

def installModule (ceiling size : Word) (cmdlineOk : Bool) :
    Option (Guest × HostRange) :=
  if size > ceiling then none
  else
    let targetPaddr := (ceiling - size) &&& pageMask
    match g.clientPaddrToVaddr targetPaddr with
    | none => none
    | some targetVaddr =>
      if isRegionConflict targetVaddr (targetVaddr + size) g.binaryStartVaddr g.binaryEndVaddr ∨
          isFpageConflict g.vm.kipFp targetVaddr (targetVaddr + size) ∨
          isFpageConflict g.vm.utcbFp targetVaddr (targetVaddr + size) then none
      else
        match g.vm.clientPaddrToHaddr targetPaddr,
          g.vm.clientPaddrToHaddr (targetPaddr + size - 1) with
        | some haddr, some _ =>
          (g.enterModule cmdlineOk).map fun g' => (g', ⟨haddr.toNat, size.toNat⟩)
        | _, _ => none

def loadModules (g : Guest) (ceiling : Word) : List BootModule → Option (List HostRange)
  | [] => some []
  | m :: ms =>
    if m.vmstart then some []
    else
      (g.installModule ceiling m.size m.cmdlineOk).bind fun r =>
        let rest := ceiling - m.size
        (r.1.loadModules (if rest % 0x1000 ≠ 0 then rest &&& pageMask else rest) ms).map (r.2 :: ·)

end Guest

def loadCurrentModule (mods : List BootModule) :
    Option (List HostRange × List HostRange) :=
  (installElfBinary vm img).bind fun r =>
    -- `init_client_shared` needs the shared page
    if r.1.clientShared.isNone then none
    else (r.1.loadModules vm.getSpaceSize mods).map fun rs => (r.2, rs)

/-- **What is asked of the memory that is written.** -/
structure Separate (elf mods : List HostRange) : Prop where
  disjoint : mods.Pairwise fun r q => Disjoint r.bytes q.bytes
  aligned : ∀ r ∈ mods, ∃ p, r.start = vm.haddrBase.toNat + p ∧ 0x1000 ∣ p
  inside : ∀ r ∈ mods, vm.haddrBase.toNat ≤ r.start ∧
    r.start + r.size ≤ vm.haddrBase.toNat + vm.paddrLen.toNat
  elf : ∀ r ∈ mods, ∀ q ∈ elf, Disjoint r.bytes q.bytes

def layout (ceiling : ℕ) : List BootModule → List (ℕ × ℕ)
  | [] => []
  | m :: ms =>
    if m.vmstart then []
    else
      let base := Blocks.floor 0x1000 (ceiling - m.size.toNat)
      (base, m.size.toNat) :: layout base ms

def Vm.loadOffset (vaddr : Word) : Word :=
  if vm.wedgePaddr ≠ 0 ∧ vaddr ≥ vm.wedgeVaddr then vm.wedgeVaddr - vm.wedgePaddr
  else vm.vaddrOffset

def Vm.loadPaddr (vaddr : Word) : Word := vaddr - vm.loadOffset vaddr

theorem Vm.clientVaddrToHaddr_eq (vaddr : Word) :
    vm.clientVaddrToHaddr vaddr = vm.clientPaddrToHaddr (vm.loadPaddr vaddr) := by
  rw [clientVaddrToHaddr, loadPaddr, loadOffset]
  split_ifs
  · congr 1
    bv_omega
  · rfl

def Vm.checkVaddr (wedgePhysSize : Option Word) (paddr : Word) : Word :=
  if paddr ≥ vm.wedgePaddr ∧ (wedgePhysSize.all fun n => paddr < vm.wedgePaddr + n) then
    paddr + vm.wedgeVaddr
  else paddr + vm.vaddrOffset

def Guest.wedgePhysSize (g : Guest) : Option Word := g.clientShared.map Shared.wedgePhysSize

variable {g : Guest}

theorem Guest.clientPaddrToVaddr_eq_some {paddr vaddr : Word} :
    g.clientPaddrToVaddr paddr = some vaddr ↔
      paddr.toNat < g.vm.paddrLen.toNat ∧ g.vm.checkVaddr g.wedgePhysSize paddr = vaddr := by
  unfold clientPaddrToVaddr Vm.checkVaddr wedgePhysSize
  rw [all_map]
  by_cases hlt : paddr.toNat < g.vm.paddrLen.toNat
  · rw [if_neg (by rwa [ge_iff_le, le_def, not_le])]
    split_ifs <;> simp [hlt]
  · rw [if_pos (by rwa [ge_iff_le, le_def, ← not_lt])]
    simp [hlt]

theorem elfLoad_eq_some {vm : Vm} {minAddr maxAddr lo hi : Word} {segs : List Segment}
    {elf : List HostRange} (h : elfLoad vm minAddr maxAddr segs = some (lo, hi, elf)) :
    elf = segs.map (fun ph => ⟨vm.haddrBase.toNat + (vm.loadPaddr ph.vaddr).toNat,
      ph.size.toNat⟩) ∧
    lo.toNat ≤ minAddr.toNat ∧ maxAddr.toNat ≤ hi.toNat ∧
    ∀ ph ∈ segs, lo.toNat ≤ ph.vaddr.toNat ∧ (ph.vaddr + ph.size).toNat ≤ hi.toNat := by
  induction segs generalizing minAddr maxAddr elf with
  | nil => simp_all [elfLoad]
  | cons ph phs ih =>
    unfold elfLoad at h
    split at h
    next haddr haddr2 hstart hend =>
      obtain ⟨⟨lo', hi', elf'⟩, hrec, heq⟩ := map_eq_some_iff.1 h
      obtain ⟨rfl, rfl, rfl⟩ : lo' = lo ∧ hi' = hi ∧
        ⟨haddr.toNat, ph.size.toNat⟩ :: elf' = elf := by simpa using heq
      obtain ⟨rfl, hlo, hhi, hall⟩ := ih hrec
      rw [Vm.clientVaddrToHaddr_eq] at hstart
      have hmin : lo'.toNat ≤ minAddr.toNat ∧ lo'.toNat ≤ ph.vaddr.toNat := by
        split_ifs at hlo with hlt <;> rw [lt_def] at hlt <;> omega
      have hmax : maxAddr.toNat ≤ hi'.toNat ∧ (ph.vaddr + ph.size).toNat ≤ hi'.toNat := by
        split_ifs at hhi with hlt <;> rw [lt_def] at hlt <;> omega
      refine ⟨?_, hmin.1, hmax.1, ?_⟩
      · rw [List.map_cons, (Vm.clientPaddrToHaddr_eq_some.1 hstart).2]
      · intro q hq
        rcases List.mem_cons.1 hq with rfl | hq
        · exact ⟨hmin.2, hmax.2⟩
        · exact hall q hq
    next => cases h

structure Installed (g : Guest) (ceiling size : Word) (g' : Guest) (r : HostRange) : Prop where
  size_le : size.toNat ≤ ceiling.toNat
  range : r = ⟨g.vm.haddrBase.toNat + ((ceiling - size) &&& pageMask).toNat, size.toNat⟩
  noConflict : isRegionConflict (g.vm.checkVaddr g.wedgePhysSize ((ceiling - size) &&& pageMask))
    (g.vm.checkVaddr g.wedgePhysSize ((ceiling - size) &&& pageMask) + size)
    g.binaryStartVaddr g.binaryEndVaddr = false
  vm : g'.vm = g.vm
  binaryStart : g'.binaryStartVaddr = g.binaryStartVaddr
  binaryEnd : g'.binaryEndVaddr = g.binaryEndVaddr
  wedgePhysSize : g'.wedgePhysSize = g.wedgePhysSize

theorem Guest.enterModule_eq_some {g' : Guest} {ok : Bool} (h : g.enterModule ok = some g') :
    g'.vm = g.vm ∧ g'.binaryStartVaddr = g.binaryStartVaddr ∧
      g'.binaryEndVaddr = g.binaryEndVaddr ∧ g'.wedgePhysSize = g.wedgePhysSize := by
  unfold enterModule at h
  split at h
  next =>
    obtain rfl := some.inj h
    exact ⟨rfl, rfl, rfl, rfl⟩
  next sh hsh =>
    split_ifs at h
    obtain rfl := some.inj h
    refine ⟨rfl, rfl, rfl, ?_⟩
    rw [wedgePhysSize, wedgePhysSize, hsh]
    rfl

theorem Guest.installed {g' : Guest} {ceiling size : Word} {ok : Bool} {r : HostRange}
    (h : g.installModule ceiling size ok = some (g', r)) : Installed g ceiling size g' r := by
  unfold installModule at h
  split_ifs at h with hsize
  dsimp only at h
  split at h
  · cases h
  next targetVaddr htarget =>
    split_ifs at h with hconflict
    push Not at hconflict
    split at h
    next haddr haddr2 hstart hend =>
      obtain ⟨g₁, hg₁, heq⟩ := map_eq_some_iff.1 h
      obtain ⟨rfl, rfl⟩ : g₁ = g' ∧ ⟨haddr.toNat, size.toNat⟩ = r := by simpa using heq
      obtain ⟨hvm, hbs, hbe, hcheck⟩ := enterModule_eq_some hg₁
      obtain ⟨-, rfl⟩ := clientPaddrToVaddr_eq_some.1 htarget
      refine ⟨?_, ?_, Bool.eq_false_of_not_eq_true hconflict.1, hvm, hbs, hbe, hcheck⟩
      · rwa [gt_iff_lt, lt_def, not_lt] at hsize
      · rw [(Vm.clientPaddrToHaddr_eq_some.1 hstart).2]
    next => cases h

theorem toNat_target {ceiling size : Word} (hle : size.toNat ≤ ceiling.toNat) :
    ((ceiling - size) &&& pageMask).toNat = Blocks.floor 0x1000 (ceiling.toNat - size.toNat) := by
  have hsub : (ceiling - size).toNat = ceiling.toNat - size.toNat := by
    rw [toNat_sub]
    omega
  rw [← hsub]
  exact Blocks.toNat_and_not 12 _

theorem toNat_nextCeiling {ceiling size : Word} (hle : size.toNat ≤ ceiling.toNat) :
    (if (ceiling - size) % 0x1000 ≠ 0 then (ceiling - size) &&& pageMask
      else ceiling - size).toNat = Blocks.floor 0x1000 (ceiling.toNat - size.toNat) := by
  rw [← toNat_target hle]
  split_ifs with hmod
  · rfl
  · have hzero : (ceiling - size).toNat % 0x1000 = 0 := by
      have := congrArg BitVec.toNat (not_not.1 hmod)
      rwa [toNat_umod] at this
    exact ((Blocks.toNat_and_not 12 _).trans
      (Blocks.floor_of_dvd (Nat.dvd_of_mod_eq_zero hzero))).symm

def Guest.Passes (g : Guest) (m : ℕ × ℕ) : Prop :=
  isRegionConflict (g.vm.checkVaddr g.wedgePhysSize (BitVec.ofNat 32 m.1))
    (g.vm.checkVaddr g.wedgePhysSize (BitVec.ofNat 32 m.1) + BitVec.ofNat 32 m.2)
    g.binaryStartVaddr g.binaryEndVaddr = false

theorem Guest.loadModules_eq_some {ceiling : Word} {mods : List BootModule} {rs : List HostRange}
    (h : g.loadModules ceiling mods = some rs) :
    rs = (layout ceiling.toNat mods).map (fun m => ⟨g.vm.haddrBase.toNat + m.1, m.2⟩) ∧
      (layout ceiling.toNat mods).Pairwise (fun m n => n.1 + n.2 ≤ m.1) ∧
      ∀ m ∈ layout ceiling.toNat mods,
        m.1 + m.2 ≤ ceiling.toNat ∧ 0x1000 ∣ m.1 ∧ g.Passes m := by
  induction mods generalizing g ceiling rs with
  | nil =>
    obtain rfl : [] = rs := some.inj h
    exact ⟨rfl, .nil, fun m hm => absurd hm List.not_mem_nil⟩
  | cons b bs ih =>
    unfold loadModules at h
    rw [layout]
    split_ifs at h ⊢ with hstart
    · obtain rfl : [] = rs := some.inj h
      exact ⟨rfl, .nil, fun m hm => absurd hm List.not_mem_nil⟩
    · obtain ⟨⟨g', r⟩, hinst, hrest⟩ := bind_eq_some_iff.1 h
      obtain ⟨rs', hrec, rfl⟩ := map_eq_some_iff.1 hrest
      have hi := installed hinst
      have htarget := toNat_target hi.size_le
      obtain ⟨hrs, hpair, hall⟩ := ih hrec
      rw [toNat_nextCeiling hi.size_le] at hrs hpair hall
      set base := Blocks.floor 0x1000 (ceiling.toNat - b.size.toNat) with hbase
      have hle : base ≤ ceiling.toNat - b.size.toNat := Blocks.floor_le _ _
      have hsize := hi.size_le
      have hword : BitVec.ofNat 32 base = (ceiling - b.size) &&& pageMask := by
        rw [← htarget, ofNat_toNat, setWidth_eq]
      have hsizeWord : BitVec.ofNat 32 b.size.toNat = b.size := by
        rw [ofNat_toNat, setWidth_eq]
      refine ⟨?_, List.pairwise_cons.2 ⟨fun n hn => (hall n hn).1, hpair⟩, ?_⟩
      · rw [List.map_cons, hrs, hi.vm, hi.range, htarget]
      · intro m hm
        rcases List.mem_cons.1 hm with rfl | hm
        · refine ⟨by omega, Blocks.dvd_floor _ _, ?_⟩
          rw [Passes, hword, hsizeWord]
          exact hi.noConflict
        · obtain ⟨hle', hdvd, hpass⟩ := hall m hm
          refine ⟨by omega, hdvd, ?_⟩
          rw [Passes, hi.vm, hi.wedgePhysSize, hi.binaryStart, hi.binaryEnd] at hpass
          exact hpass

structure Vm.Sees (wedgePhysSize : Option Word) (m : ℕ × ℕ) (ph : Segment) : Prop where
  offset : vm.checkVaddr wedgePhysSize (BitVec.ofNat 32 m.1) - BitVec.ofNat 32 m.1 =
    vm.loadOffset ph.vaddr
  module : (vm.checkVaddr wedgePhysSize (BitVec.ofNat 32 m.1)).toNat + m.2 < 2 ^ 32
  segment : ph.vaddr.toNat + ph.size.toNat < 2 ^ 32

def moduleBytes (m : ℕ × ℕ) : Set ℕ := Set.Ico m.1 (m.1 + m.2)

def Vm.segmentBytes (ph : Segment) : Set ℕ :=
  Set.Ico (vm.loadPaddr ph.vaddr).toNat ((vm.loadPaddr ph.vaddr).toNat + ph.size.toNat)

theorem Guest.Passes.disjoint {m : ℕ × ℕ} {ph : Segment} (hpass : g.Passes m)
    (hsees : g.vm.Sees g.wedgePhysSize m ph) (hm : m.1 < 2 ^ 32)
    (hlo : g.binaryStartVaddr.toNat ≤ ph.vaddr.toNat)
    (hhi : (ph.vaddr + ph.size).toNat ≤ g.binaryEndVaddr.toNat) :
    Disjoint (moduleBytes m) (g.vm.segmentBytes ph) := by
  obtain ⟨hoff, hmod, hseg⟩ := hsees
  rw [Passes] at hpass
  generalize g.vm.checkVaddr g.wedgePhysSize (BitVec.ofNat 32 m.1) = tv at hpass hoff hmod
  rw [Set.disjoint_left]
  rintro x ⟨hx, hx'⟩ ⟨hy, hy'⟩
  rw [Vm.loadPaddr] at hy hy'
  generalize g.vm.loadOffset ph.vaddr = o at hoff hy hy'
  -- the byte in virtual addresses: once from the module, once from the segment
  have htv : tv.toNat = (m.1 + o.toNat) % 2 ^ 32 := by
    have hsum : tv = BitVec.ofNat 32 m.1 + o := by
      bv_omega
    rw [hsum, BitVec.toNat_add, toNat_ofNat, Nat.mod_eq_of_lt hm]
  have hv : ph.vaddr.toNat = ((ph.vaddr - o).toNat + o.toNat) % 2 ^ 32 := by
    bv_omega
  have hend : (tv + BitVec.ofNat 32 m.2).toNat = tv.toNat + m.2 := by
    rw [BitVec.toNat_add, toNat_ofNat, Nat.add_mod_mod, Nat.mod_eq_of_lt hmod]
  have hsegEnd : (ph.vaddr + ph.size).toNat = ph.vaddr.toNat + ph.size.toNat := by
    rw [BitVec.toNat_add, Nat.mod_eq_of_lt hseg]
  have hconflict : isRegionConflict tv (tv + BitVec.ofNat 32 m.2) g.binaryStartVaddr
      g.binaryEndVaddr = true := by
    simp only [isRegionConflict, Bool.or_eq_true, Bool.and_eq_true, decide_eq_true_eq, gt_iff_lt,
      lt_def, hend]
    right
    omega
  rw [hconflict] at hpass
  cases hpass

theorem disjoint_bytes_iff (base a n b k : ℕ) :
    Disjoint (HostRange.bytes ⟨base + a, n⟩) (HostRange.bytes ⟨base + b, k⟩) ↔
      Disjoint (Set.Ico a (a + n)) (Set.Ico b (b + k)) := by
  rw [HostRange.bytes, HostRange.bytes, Set.Ico_disjoint_Ico, Set.Ico_disjoint_Ico]
  dsimp only
  omega

theorem loadCurrentModule_eq_some {vm : Vm} {img : Image} {mods : List BootModule}
    {elf rs : List HostRange} (h : loadCurrentModule vm img mods = some (elf, rs)) :
    elf = img.segs.map (fun ph => ⟨vm.haddrBase.toNat + ((img.place vm).loadPaddr ph.vaddr).toNat,
      ph.size.toNat⟩) ∧
    rs = (layout vm.paddrLen.toNat mods).map (fun m => ⟨vm.haddrBase.toNat + m.1, m.2⟩) ∧
    (layout vm.paddrLen.toNat mods).Pairwise (fun m n => n.1 + n.2 ≤ m.1) ∧
    ∀ m ∈ layout vm.paddrLen.toNat mods, m.1 + m.2 ≤ vm.paddrLen.toNat ∧ 0x1000 ∣ m.1 ∧
      ∀ ph ∈ img.segs, (img.place vm).Sees img.wedgePhysSize m ph →
        Disjoint (moduleBytes m) ((img.place vm).segmentBytes ph) := by
  obtain ⟨⟨g, elf'⟩, hinst, hrest⟩ := bind_eq_some_iff.1 h
  split_ifs at hrest
  obtain ⟨rs', hload, heq⟩ := map_eq_some_iff.1 hrest
  obtain ⟨rfl, rfl⟩ : elf' = elf ∧ rs' = rs := by simpa using heq
  obtain ⟨⟨lo, hi, elf''⟩, helf, hg⟩ := map_eq_some_iff.1 hinst
  obtain ⟨rfl, rfl⟩ : (⟨img.place vm, lo, hi, img.wedgePhysSize.map (⟨·, 0⟩)⟩ : Guest) = g ∧
    elf'' = elf' := by simpa using hg
  obtain ⟨helf, -, -, hbounds⟩ := elfLoad_eq_some helf
  obtain ⟨hrs, hpair, hall⟩ := Guest.loadModules_eq_some hload
  have hwedge : (⟨img.place vm, lo, hi, img.wedgePhysSize.map (⟨·, 0⟩)⟩ : Guest).wedgePhysSize =
      img.wedgePhysSize := by
    rw [Guest.wedgePhysSize, map_map]
    exact map_id'
  refine ⟨helf, hrs, hpair, fun m hm => ⟨(hall m hm).1, (hall m hm).2.1, fun ph hph hsees => ?_⟩⟩
  have hle : m.1 + m.2 ≤ vm.paddrLen.toNat := (hall m hm).1
  rw [← hwedge] at hsees
  exact (hall m hm).2.2.disjoint hsees (by omega) (hbounds ph hph).1 (hbounds ph hph).2

/-- The page-rounded sizes of the modules that follow. -/
def takenBy : List BootModule → ℕ
  | [] => 0
  | m :: ms => if m.vmstart then 0 else (m.size.toNat + 0xfff) / 0x1000 * 0x1000 + takenBy ms

/-- The modules take the top of the memory. -/
theorem le_layout {ceiling : ℕ} (h : 0x1000 ∣ ceiling) (mods : List BootModule) :
    ∀ m ∈ layout ceiling mods, ceiling ≤ m.1 + takenBy mods := by
  induction mods generalizing ceiling with
  | nil => exact fun m hm => absurd hm List.not_mem_nil
  | cons b bs ih =>
    rw [layout, takenBy]
    split_ifs
    · exact fun m hm => absurd hm List.not_mem_nil
    · have hbase : ceiling ≤ Blocks.floor 0x1000 (ceiling - b.size.toNat) +
          (b.size.toNat + 0xfff) / 0x1000 * 0x1000 := by
        unfold Blocks.floor
        omega
      intro m hm
      rcases List.mem_cons.1 hm with rfl | hm
      · exact hbase.trans (Nat.add_le_add_left (Nat.le_add_right _ _) _)
      · have := ih (Blocks.dvd_floor _ _) m hm
        omega

/-- **When the modules stay away from the binary.** Installed modules do not overlap, start on page
boundaries and lie inside the VM. They are apart from the binary if for each segment the comparison
in `install_module` sees it for all modules, or the modules do not reach down to it. -/
theorem separate_of_sees (vm : Vm) (img : Image) (mods : List BootModule) (elf rs : List HostRange)
    (h : loadCurrentModule vm img mods = some (elf, rs))
    (hcond : ∀ ph ∈ img.segs,
      (∀ m ∈ layout vm.paddrLen.toNat mods, (img.place vm).Sees img.wedgePhysSize m ph) ∨
        ((img.place vm).loadPaddr ph.vaddr).toNat + ph.size.toNat + takenBy mods ≤
          vm.paddrLen.toNat) :
    Separate vm elf rs := by
  obtain ⟨rfl, rfl, hpair, hall⟩ := loadCurrentModule_eq_some h
  refine ⟨?_, ?_, ?_, ?_⟩
  · refine List.pairwise_map.2 (hpair.imp fun {m n} hmn => ?_)
    rw [disjoint_bytes_iff, Set.Ico_disjoint_Ico]
    omega
  · grind
  · intro r hr
    obtain ⟨m, hm, rfl⟩ := List.mem_map.1 hr
    have hle := (hall m hm).1
    exact ⟨Nat.le_add_right _ _, by dsimp only; omega⟩
  · intro r hr q hq
    obtain ⟨m, hm, rfl⟩ := List.mem_map.1 hr
    obtain ⟨ph, hph, rfl⟩ := List.mem_map.1 hq
    rw [disjoint_bytes_iff]
    rcases hcond ph hph with hsees | hbelow
    · exact (hall m hm).2.2 ph hph (hsees m hm)
    · have hpage : 0x1000 ∣ vm.paddrLen.toNat := (show 0x1000 ∣ superPageSize by decide).trans
        vm.len_aligned
      have hle := le_layout hpage mods m hm
      rw [Set.Ico_disjoint_Ico]
      omega

def vmOf32M (wedgePaddr : Word) : Vm where
  haddrBase := 0x4000000
  paddrLen := 0x2000000
  vaddrOffset := 0
  wedgePaddr := wedgePaddr
  wedgeVaddr := 0
  kipFp := Fpage.log2 0 12 pageBits_le
  utcbFp := Fpage.log2 0 12 pageBits_le
  deviceAccessEnabled := false
  devices := fun _ => (0, 0)
  base_aligned := by decide
  len_aligned := by decide
  fits := by decide

def imageAt (entry vaddr : Word) : Image where
  entry := entry
  segs := [⟨vaddr, 0x80000, 0x100000⟩]
  kipFp := Fpage.log2 0xe0000000 12 pageBits_le
  utcbFp := Fpage.log2 0xe0001000 12 pageBits_le
  wedgePhysSize := some 0x400000

theorem separate_withoutWedge :
    loadCurrentModule (vmOf32M 0) (imageAt 0x101000 0x100000) [⟨0x1800, false, true⟩] =
      some ([⟨0x4100000, 0x100000⟩], [⟨0x5ffe000, 0x1800⟩]) ∧
    Separate (vmOf32M 0) [⟨0x4100000, 0x100000⟩] [⟨0x5ffe000, 0x1800⟩] := by
  have hload : loadCurrentModule (vmOf32M 0) (imageAt 0x101000 0x100000) [⟨0x1800, false, true⟩] =
      some ([⟨0x4100000, 0x100000⟩], [⟨0x5ffe000, 0x1800⟩]) := by decide +kernel
  refine ⟨hload, separate_of_sees _ _ _ _ _ hload fun ph hph => .inl fun m hm => ?_⟩
  have hlayout : layout (vmOf32M 0).paddrLen.toNat [⟨0x1800, false, true⟩] =
      [(0x1ffe000, 0x1800)] := by decide +kernel
  rw [hlayout, List.mem_singleton] at hm
  rw [imageAt, List.mem_singleton] at hph
  subst hm hph
  exact ⟨by decide +kernel, by decide +kernel, by decide +kernel⟩

theorem not_separate_overWedge :
    loadCurrentModule (vmOf32M 0x1000000) (imageAt 0xf0001000 0xf0000000)
        [⟨0xf80000, false, true⟩] =
      some ([⟨0x5000000, 0x100000⟩], [⟨0x5080000, 0xf80000⟩]) ∧
    ¬ Separate (vmOf32M 0x1000000) [⟨0x5000000, 0x100000⟩] [⟨0x5080000, 0xf80000⟩] := by
  refine ⟨by decide +kernel, fun hsep => ?_⟩
  have hdisj := hsep.elf _ (List.mem_singleton.2 rfl) _ (List.mem_singleton.2 rfl)
  rw [Set.disjoint_left] at hdisj
  exact hdisj (a := 0x5080000) ⟨by decide, by decide⟩ ⟨by decide, by decide⟩

end Resourcemon
