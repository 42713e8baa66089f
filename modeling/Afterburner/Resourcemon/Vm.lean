import Afterburner.Lib.Blocks

/-!
# Virtual machines of the resource monitor

* `Fpage`: a flexpage, an aligned block of the address space with its rights.
* `Vm`: what the pager reads of `vm_t`. Its host region is whole super pages and does not wrap.
* `Monitor`: the table of VMs and what identifies the threads of the monitor itself.
-/

namespace Resourcemon
open BitVec

abbrev Word := BitVec 32
def superPageSize : ℕ := 2 ^ 22
def pageBits : ℕ := 12
theorem pageBits_le : pageBits ≤ 32 := by decide

structure Fpage where
  base : Word
  szlog2 : ℕ
  rights : BitVec 4
  szlog2_le : szlog2 ≤ 32
  aligned : 2 ^ szlog2 ∣ base.toNat

namespace Fpage
variable (f : Fpage)

def size : Word := BitVec.ofNat 32 (2 ^ f.szlog2)
def isNil : Bool := f.base = 0 && f.szlog2 = 0 && f.rights = 0

def log2 (a : Word) (s : ℕ) (hs : s ≤ 32) : Fpage where
  base := BitVec.ofNat 32 (Blocks.floor (2 ^ s) a.toNat)
  szlog2 := s
  rights := 0
  szlog2_le := hs
  aligned := by
    have hlt := lt_of_le_of_lt (Blocks.floor_le (2 ^ s) a.toNat) a.isLt
    rw [toNat_ofNat, Nat.mod_eq_of_lt hlt]
    exact Blocks.dvd_floor _ _

def addRights (rights : BitVec 4) : Fpage := { f with rights := f.rights ||| rights }
def fullyAccessible : BitVec 4 := 7
def last : Word := f.base + f.size - 1

theorem toNat_log2 (a : Word) (s : ℕ) (hs : s ≤ 32) :
    (log2 a s hs).base.toNat = Blocks.floor (2 ^ s) a.toNat := by
  have hlt := lt_of_le_of_lt (Blocks.floor_le (2 ^ s) a.toNat) a.isLt
  rw [log2, toNat_ofNat, Nat.mod_eq_of_lt hlt]

theorem base_add_le : f.base.toNat + 2 ^ f.szlog2 ≤ 2 ^ 32 :=
  Blocks.add_le_of_dvd f.aligned (pow_dvd_pow 2 f.szlog2_le) f.base.isLt

theorem toNat_last : f.last.toNat = f.base.toNat + 2 ^ f.szlog2 - 1 := by
  have hle := f.base_add_le
  have hpos : 0 < 2 ^ f.szlog2 := Nat.two_pow_pos _
  have hone : (1 : Word).toNat = 1 := rfl
  simp only [last, size, toNat_sub, toNat_add, toNat_ofNat, hone]
  omega

end Fpage

def isFpageIntersect (fp1 fp2 : Fpage) : Bool :=
  let start1 := fp1.base
  let end1 := start1 + fp1.size
  let start2 := fp2.base
  let end2 := start2 + fp2.size
  (start1 < start2 && end1 > end2) || (start1 < start2 && end1 > start2) ||
    (start1 < end2 && end1 > end2)

structure Vm where
  haddrBase : Word
  paddrLen : Word
  vaddrOffset : Word
  wedgePaddr : Word
  wedgeVaddr : Word
  kipFp : Fpage
  utcbFp : Fpage
  deviceAccessEnabled : Bool
  /-- `client_shared->devices`, as pairs of the lowest and the highest address -/
  devices : ℕ → Word × Word
  base_aligned : superPageSize ∣ haddrBase.toNat
  len_aligned : superPageSize ∣ paddrLen.toNat
  fits : haddrBase.toNat + paddrLen.toNat ≤ 2 ^ 32

def maxDevices : ℕ := 16

namespace Vm
variable (vm : Vm)

def getDeviceLow (idx : ℕ) : Word :=
  if idx < maxDevices then (vm.devices idx).1 else 0xFFFFFFF

def getDeviceHigh (idx : ℕ) : Word :=
  if idx < maxDevices then (vm.devices idx).2 else 0

def getSpaceSize : Word := vm.paddrLen

def clientPaddrToHaddr (paddr : Word) : Option Word :=
  if paddr < vm.paddrLen then some (paddr + vm.haddrBase) else none

def clientVaddrToHaddr (vaddr : Word) : Option Word :=
  if vm.wedgePaddr ≠ 0 ∧ vaddr ≥ vm.wedgeVaddr then
    vm.clientPaddrToHaddr (vaddr - vm.wedgeVaddr + vm.wedgePaddr)
  else vm.clientPaddrToHaddr (vaddr - vm.vaddrOffset)

theorem clientPaddrToHaddr_eq_some {vm : Vm} {paddr haddr : Word} :
    vm.clientPaddrToHaddr paddr = some haddr ↔
      paddr.toNat < vm.paddrLen.toNat ∧ haddr.toNat = vm.haddrBase.toNat + paddr.toNat := by
  have hfits := vm.fits
  simp only [clientPaddrToHaddr, lt_def]
  split_ifs with h
  · have hadd : (paddr + vm.haddrBase).toNat = vm.haddrBase.toNat + paddr.toNat := by
      rw [toNat_add]; omega
    simp only [Option.some.injEq, ← toNat_inj, hadd, h, true_and]
    exact eq_comm
  · simp [h]

theorem clientPaddrToHaddr_isSome {vm : Vm} {paddr : Word} :
    (vm.clientPaddrToHaddr paddr).isSome ↔ paddr.toNat < vm.paddrLen.toNat := by
  simp only [clientPaddrToHaddr, lt_def]
  split_ifs with h <;> simp [h]

end Vm

structure ThreadId where
  isLocal : Bool
  threadNo : Word
  version : ℕ

structure Monitor where
  baseTid : Word
  /-- the allocated VMs; the monitor itself is VM `0` -/
  vmList : ℕ → Option Vm
  syscallsStart : Word
  syscallsEnd : Word
  syscallStubs : Word

def threadSpaceSize : ℕ := 4096
def maxVm : ℕ := 16
def hthreadIdxMax : ℕ := 42

namespace Monitor
variable (m : Monitor) (tid : ThreadId)

def tidToSpaceId : ℕ :=
  (tid.threadNo - m.baseTid).toNat / threadSpaceSize

def tidToVm : Option Vm :=
  let spaceId := if tid.isLocal then 0 else m.tidToSpaceId tid
  if spaceId ≥ maxVm then none else m.vmList spaceId

def isHthread : Bool :=
  if tid.isLocal then true
  else
    let idx := tid.threadNo - m.baseTid
    if idx.toNat > hthreadIdxMax then false
    else if tid.threadNo - idx ≠ m.baseTid then false
    else tid.version = 2

def resolveHthreadPfault (addr : Word) : Option Word :=
  if ¬ m.isHthread tid then none
  else if addr ≥ m.syscallsStart ∧ addr < m.syscallsEnd then some m.syscallStubs
  else some addr

def IsClient : Prop :=
  tid.isLocal = false ∧ m.tidToSpaceId tid ≠ 0

instance  : Decidable (m.IsClient tid) :=
  inferInstanceAs (Decidable (_ ∧ _))

theorem isHthread_of_isClient {m : Monitor} {tid : ThreadId} (h : m.IsClient tid) :
    m.isHthread tid = false := by
  have hidx : (tid.threadNo - m.baseTid).toNat > hthreadIdxMax := by
    by_contra hle
    refine h.2 (Nat.div_eq_of_lt ?_)
    simp only [hthreadIdxMax, threadSpaceSize] at hle ⊢
    omega
  rw [isHthread, if_neg (by simp [h.1])]
  exact if_pos hidx

end Monitor
end Resourcemon
