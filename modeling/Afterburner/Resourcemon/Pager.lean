import Afterburner.Resourcemon.Vm

/-!
# The pager: which host memory a reply hands out

Page faults, requests for pages, requests for device memory that is ordinary memory, and requests of
a driver for pages of a client.
-/
variable (m : Monitor) (caller : ThreadId)

namespace Resourcemon
open BitVec Option Fpage

def isLowmem (addr : Word) : Bool := addr ≤ 1024 * 1024

def deviceScan (vm : Vm) (low high : Word) : List ℕ → Bool
  | [] => false
  | d :: ds =>
    let pageSize := high - low
    let devlow := vm.getDeviceLow d &&& ~~~ (pageSize - 1)
    let devhigh := vm.getDeviceHigh d ||| (pageSize - 1)
    if devlow ≥ devhigh then false
    else if low ≥ devlow ∧ high ≤ devhigh then true
    else deviceScan vm low high ds

def isDeviceMem (vm : Vm) (low high : Word) : Bool :=
  if isLowmem low ∧ isLowmem high then true else deviceScan vm low high (List.range maxDevices)

inductive PagerException
  | invalidMemRegion
  | noPermission
  | unknownClient
  deriving DecidableEq, Repr

structure Reply where
  response : Bool
  exception : Option PagerException
  base : Word
  page : Option Fpage

variable (r : Reply)

namespace Reply

def noResponse : Reply := ⟨false, none, 0, none⟩
def nil (base : Word) : Reply := ⟨true, none, base, none⟩
def exn (e : PagerException) : Reply := { r with exception := some e }
def grant (base : Word) (page : Fpage) : Reply := ⟨true, none, base, some page⟩

def InRegion (vm : Vm) : Prop :=
  ∀ f, r.page = some f →
    Blocks.Covers vm.haddrBase.toNat vm.paddrLen.toNat f.base.toNat (2 ^ f.szlog2)

end Reply
namespace Monitor

def pagefault (pfAddr : Word) : Reply :=
  match m.resolveHthreadPfault caller pfAddr with
  | some haddr => .grant pfAddr (.log2 haddr pageBits (by decide))
  | none =>
    match m.tidToVm caller with
    | none => .noResponse
    | some vm =>
      match vm.clientVaddrToHaddr pfAddr with
      | none => .noResponse
      | some haddr =>
        if isDeviceMem vm haddr (haddr + 4095) then (Reply.nil 0).exn .invalidMemRegion
        else .grant pfAddr (.log2 haddr pageBits (by decide))

def requestPages (req : Fpage) : Reply :=
  match m.tidToVm caller with
  | none => .noResponse
  | some vm =>
    if isFpageIntersect vm.kipFp req ∨ isFpageIntersect vm.utcbFp req then
      (Reply.nil 0).exn .invalidMemRegion
    else
      let haddr := (vm.clientPaddrToHaddr req.base).getD 0
      let r :=
        if (vm.clientPaddrToHaddr req.base).isSome ∧ (vm.clientPaddrToHaddr req.last).isSome then
          .grant req.base (.log2 haddr req.szlog2 req.szlog2_le)
        else (Reply.nil 0).exn .invalidMemRegion
      -- the page stays in the reply when the host range is found to be device memory
      if isDeviceMem vm haddr (haddr + req.size - 1) then r.exn .invalidMemRegion else r

def requestFakeDevice (req : Fpage) : Option Reply :=
  let req := req.addRights fullyAccessible
  match m.tidToVm caller with
  | none => some .noResponse
  | some vm =>
    if req.isNil then some (.nil req.base)
    else if isDeviceMem vm req.base req.last then none
    else
      match vm.clientPaddrToHaddr req.base, vm.clientPaddrToHaddr req.last with
      | some haddr, some _ =>
        let fp := (log2 haddr req.szlog2 req.szlog2_le).addRights fullyAccessible
        some (.grant fp.base fp)
      | _, _ => some (.nil req.base)

def requestClientPages (caller clientTid : ThreadId) (req : Fpage) : Reply :=
  match m.tidToVm caller with
  | none => .noResponse
  | some vm =>
    if req.isNil then .nil req.base
    else if ¬ vm.deviceAccessEnabled then (Reply.nil req.base).exn .noPermission
    else
      match m.tidToVm clientTid with
      | none => (Reply.nil req.base).exn .unknownClient
      | some clientVm =>
        if req.last > clientVm.getSpaceSize then (Reply.nil req.base).exn .invalidMemRegion
        else .grant req.base (.log2 (clientVm.haddrBase + req.base) req.szlog2 req.szlog2_le)

section Grants
variable {m} {caller} {vm : Vm}

theorem inRegion_of_page_none {r : Reply} (h : r.page = none) : r.InRegion vm := by
  intro f hf
  rw [h] at hf
  cases hf

theorem inRegion_grant_iff (base : Word) (f : Fpage) :
    (Reply.grant base f).InRegion vm ↔
      Blocks.Covers vm.haddrBase.toNat vm.paddrLen.toNat f.base.toNat (2 ^ f.szlog2) :=
  ⟨fun h => h f rfl, fun h _ hg => some.inj hg ▸ h⟩

theorem inRegion_exn_iff (e : PagerException) :
    (r.exn e).InRegion vm ↔ r.InRegion vm := Iff.rfl

theorem floor_covers_iff (vm : Vm) (req : Fpage)
    (hreq : req.base.toNat + 2 ^ req.szlog2 ≤ vm.paddrLen.toNat) :
    Blocks.Covers vm.haddrBase.toNat vm.paddrLen.toNat
        (Blocks.floor (2 ^ req.szlog2) (vm.haddrBase.toNat + req.base.toNat)) (2 ^ req.szlog2) ↔
      2 ^ req.szlog2 ∣ vm.haddrBase.toNat ∨ req.base ≠ 0 := by
  rw [Blocks.covers_floor_iff (Nat.two_pow_pos _) req.aligned hreq]
  have h0 : req.base.toNat ≠ 0 ↔ req.base ≠ 0 := by
    rw [not_iff_not, ← toNat_inj]
    rfl
  rw [h0]

theorem translates_iff (vm : Vm) (req : Fpage) :
    ((vm.clientPaddrToHaddr req.base).isSome ∧ (vm.clientPaddrToHaddr req.last).isSome) ↔
      req.base.toNat + 2 ^ req.szlog2 ≤ vm.paddrLen.toNat := by
  have hpos : 0 < 2 ^ req.szlog2 := Nat.two_pow_pos _
  rw [Vm.clientPaddrToHaddr_isSome, Vm.clientPaddrToHaddr_isSome, req.toNat_last]
  omega

variable {req : Fpage}

theorem ne_zero_or_lt_of_not_le (h : ¬ req.base.toNat + 2 ^ req.szlog2 ≤ vm.paddrLen.toNat) :
    req.base ≠ 0 ∨ vm.paddrLen.toNat < 2 ^ req.szlog2 := by
  by_cases h0 : req.base = 0
  · simp_all
  · exact .inl h0

theorem pagefault_inRegion (hc : m.IsClient caller) (hvm : m.tidToVm caller = some vm)
    (pfAddr : Word) : (m.pagefault caller pfAddr).InRegion vm := by
  have hh : m.resolveHthreadPfault caller pfAddr = none := by
    simp [resolveHthreadPfault, isHthread_of_isClient hc]
  simp only [pagefault, hh, hvm]
  cases htr : vm.clientVaddrToHaddr pfAddr with
  | none => exact inRegion_of_page_none rfl
  | some haddr =>
    dsimp only
    split_ifs
    · exact inRegion_of_page_none rfl
    · -- whichever window the address is in, it is translated as an address inside the VM
      obtain ⟨paddr, hpaddr⟩ : ∃ paddr, vm.clientPaddrToHaddr paddr = some haddr := by
        simp only [Vm.clientVaddrToHaddr] at htr
        split_ifs at htr
        · exact ⟨_, htr⟩
        · exact ⟨_, htr⟩
      obtain ⟨hlt, hadd⟩ := Vm.clientPaddrToHaddr_eq_some.1 hpaddr
      have hbase : 2 ^ pageBits ∣ vm.haddrBase.toNat :=
        (pow_dvd_pow 2 (by decide)).trans vm.base_aligned
      have hlen : 2 ^ pageBits ∣ vm.paddrLen.toNat :=
        (pow_dvd_pow 2 (by decide)).trans vm.len_aligned
      have hle := Blocks.floor_le (2 ^ pageBits) paddr.toNat
      have hend := Blocks.add_le_of_dvd (Blocks.dvd_floor (2 ^ pageBits) paddr.toNat) hlen
        (lt_of_le_of_lt hle hlt)
      rw [inRegion_grant_iff, toNat_log2, hadd, Nat.add_comm,
        Blocks.floor_add_of_dvd (Nat.two_pow_pos _) hbase]
      exact ⟨Nat.le_add_left _ _, by simp only [log2]; omega⟩

theorem covers_translated_iff {haddr : Word} (hstart : vm.clientPaddrToHaddr req.base = some haddr)
    (hend : (vm.clientPaddrToHaddr req.last).isSome) :
    Blocks.Covers vm.haddrBase.toNat vm.paddrLen.toNat
        (log2 haddr req.szlog2 req.szlog2_le).base.toNat (2 ^ req.szlog2) ↔
      2 ^ req.szlog2 ∣ vm.haddrBase.toNat ∨ req.base ≠ 0 ∨
        vm.paddrLen.toNat < 2 ^ req.szlog2 := by
  have hin := (translates_iff vm req).1 ⟨by simp [hstart], hend⟩
  have hsmall : ¬ vm.paddrLen.toNat < 2 ^ req.szlog2 := by omega
  rw [toNat_log2, (Vm.clientPaddrToHaddr_eq_some.1 hstart).2, floor_covers_iff vm req hin]
  simp only [hsmall, or_false]

theorem requestPages_inRegion_iff (hvm : m.tidToVm caller = some vm) (req : Fpage) :
    (m.requestPages caller req).InRegion vm ↔
      2 ^ req.szlog2 ∣ vm.haddrBase.toNat ∨ req.base ≠ 0 ∨ vm.paddrLen.toNat < 2 ^ req.szlog2 ∨
        isFpageIntersect vm.kipFp req ∨ isFpageIntersect vm.utcbFp req := by
  simp only [requestPages, hvm]
  by_cases halias : isFpageIntersect vm.kipFp req ∨ isFpageIntersect vm.utcbFp req
  · rw [if_pos halias]
    exact iff_of_true (inRegion_of_page_none rfl) (.inr (.inr (.inr halias)))
  · rw [if_neg halias, apply_ite (fun r => Reply.InRegion r vm), inRegion_exn_iff, ite_self]
    simp only [halias, or_false]
    split_ifs with hin
    · obtain ⟨haddr, hstart⟩ := isSome_iff_exists.1 hin.1
      rw [hstart, inRegion_grant_iff]
      exact covers_translated_iff hstart hin.2
    · rw [translates_iff] at hin
      exact iff_of_true (inRegion_of_page_none rfl) (.inr (ne_zero_or_lt_of_not_le hin))

theorem requestFakeDevice_inRegion_iff (hvm : m.tidToVm caller = some vm) {r : Reply}
    (hr : m.requestFakeDevice caller req = some r) :
    r.InRegion vm ↔
      2 ^ req.szlog2 ∣ vm.haddrBase.toNat ∨ req.base ≠ 0 ∨ vm.paddrLen.toNat < 2 ^ req.szlog2 := by
  -- access rights change neither the block nor its translation
  obtain ⟨hbase, hsz⟩ : (req.addRights fullyAccessible).base = req.base ∧
      (req.addRights fullyAccessible).szlog2 = req.szlog2 := ⟨rfl, rfl⟩
  rw [← hbase, ← hsz]
  simp only [requestFakeDevice, hvm] at hr
  generalize req.addRights fullyAccessible = req at hr
  split_ifs at hr with hnil
  · obtain rfl := some.inj hr
    have hzero : req.szlog2 = 0 := by simp_all [isNil, Bool.and_eq_true, decide_eq_true_eq]
    exact iff_of_true (inRegion_of_page_none rfl) (.inl (by simp [hzero]))
  · split at hr
    · next haddr _ hstart hend =>
      obtain rfl := some.inj hr
      rw [inRegion_grant_iff]
      exact covers_translated_iff hstart (by simp [hend])
    · next hnone =>
      obtain rfl := some.inj hr
      refine iff_of_true (inRegion_of_page_none rfl) (.inr (ne_zero_or_lt_of_not_le fun hin => ?_))
      obtain ⟨h1, h2⟩ := (translates_iff vm req).2 hin
      obtain ⟨a, ha⟩ := isSome_iff_exists.1 h1
      obtain ⟨b, hb⟩ := isSome_iff_exists.1 h2
      exact hnone a b ha hb

theorem eq_zero_of_one_behind {a s len : ℕ} (ha : 2 ^ s ∣ a) (hlen : superPageSize ∣ len)
    (h : a + 2 ^ s = len + 1) : s = 0 := by
  have hd : 2 ^ min s 22 ∣ len + 1 := by
    rw [← h]
    exact (pow_dvd_pow 2 (min_le_left s 22)).trans (Nat.dvd_add ha dvd_rfl)
  have hd' : 2 ^ min s 22 ∣ len := (pow_dvd_pow 2 (min_le_right s 22)).trans hlen
  have hone : 2 ^ min s 22 = 1 := Nat.dvd_one.1 ((Nat.dvd_add_right hd').1 hd)
  have hmin : min s 22 = 0 := by grind [Nat.eq_zero_or_pos, Nat.one_lt_two_pow]
  omega

theorem requestClientPages_inRegion_iff (hvm : m.tidToVm caller = some vm) {clientTid : ThreadId}
    {client : Vm} (hclient : m.tidToVm clientTid = some client) (req : Fpage) :
    (m.requestClientPages caller clientTid req).InRegion client ↔
      req.isNil ∨ vm.deviceAccessEnabled = false ∨
      (2 ^ req.szlog2 ∣ client.haddrBase.toNat ∨ req.base ≠ 0 ∨
        client.paddrLen.toNat < 2 ^ req.szlog2) ∧
        ¬ (req.szlog2 = 0 ∧ req.base = client.paddrLen) := by
  have hpos : 0 < 2 ^ req.szlog2 := Nat.two_pow_pos _
  have hfits := client.fits
  have hlast := req.toNat_last
  have hsize : client.getSpaceSize = client.paddrLen := rfl
  simp only [requestClientPages, hvm, hclient]
  by_cases hnil : req.isNil = true
  · rw [if_pos hnil]
    exact iff_of_true (inRegion_of_page_none rfl) (.inl hnil)
  by_cases hacc : vm.deviceAccessEnabled = false
  · rw [if_neg hnil, if_pos (by simp [hacc])]
    exact iff_of_true (inRegion_of_page_none rfl) (.inr (.inl hacc))
  rw [if_neg hnil, if_neg (by simp [hacc])]
  simp only [hnil, hacc, Bool.false_eq_true, Bool.true_eq_false, false_or]
  by_cases hend : req.last > client.getSpaceSize
  · -- refused
    rw [if_pos hend]
    rw [gt_iff_lt, lt_def, hlast, hsize] at hend
    refine iff_of_true (inRegion_of_page_none rfl) ⟨.inr (ne_zero_or_lt_of_not_le (by omega)), ?_⟩
    rintro ⟨hz, hb⟩
    rw [hz, hb] at hend
    omega
  · rw [if_neg hend, inRegion_grant_iff]
    rw [gt_iff_lt, lt_def, hsize] at hend
    rcases Nat.lt_or_ge client.paddrLen.toNat (req.base.toNat + 2 ^ req.szlog2) with hover | hin
    · -- one byte behind the memory of the client
      have hz : req.szlog2 = 0 :=
        eq_zero_of_one_behind req.aligned client.len_aligned (by omega)
      have hone : 2 ^ req.szlog2 = 1 := by rw [hz, pow_zero]
      have hb : req.base.toNat = client.paddrLen.toNat := by omega
      refine iff_of_false ?_ fun h => h.2 ⟨hz, eq_of_toNat_eq hb⟩
      rw [toNat_log2, hone, Blocks.floor_of_dvd (one_dvd _), toNat_add,
        Blocks.Covers]
      simp only [log2, hone]
      omega
    · have hadd :
          (client.haddrBase + req.base).toNat = client.haddrBase.toNat + req.base.toNat := by
        rw [toNat_add]
        omega
      have hsmall : ¬ client.paddrLen.toNat < 2 ^ req.szlog2 := by omega
      have hbyte : ¬ (req.szlog2 = 0 ∧ req.base = client.paddrLen) := by
        rintro ⟨-, hb⟩
        rw [hb] at hin
        omega
      rw [toNat_log2, hadd]
      simp only [hsmall, hbyte, or_false, not_false_iff, and_true]
      exact floor_covers_iff client req hin

end Grants

/-- **Which replies hand out only memory of the VM.** Page faults do. The others do unless an
accepted request starts at guest address `0` and the host base is not aligned to its size; a driver
can also get one byte behind its client's memory. -/
theorem replies_inRegion_iff (m : Monitor) (caller : ThreadId) (vm : Vm) (hc : m.IsClient caller)
    (hvm : m.tidToVm caller = some vm) :
    (∀ pfAddr, (m.pagefault caller pfAddr).InRegion vm) ∧
    (∀ req : Fpage, (m.requestPages caller req).InRegion vm ↔
      2 ^ req.szlog2 ∣ vm.haddrBase.toNat ∨ req.base ≠ 0 ∨ vm.paddrLen.toNat < 2 ^ req.szlog2 ∨
        isFpageIntersect vm.kipFp req ∨ isFpageIntersect vm.utcbFp req) ∧
    (∀ (req : Fpage) r, m.requestFakeDevice caller req = some r → (r.InRegion vm ↔
      2 ^ req.szlog2 ∣ vm.haddrBase.toNat ∨ req.base ≠ 0 ∨
        vm.paddrLen.toNat < 2 ^ req.szlog2)) ∧
    (∀ clientTid client, m.tidToVm clientTid = some client → ∀ req : Fpage,
      (m.requestClientPages caller clientTid req).InRegion client ↔
        req.isNil ∨ vm.deviceAccessEnabled = false ∨
        (2 ^ req.szlog2 ∣ client.haddrBase.toNat ∨ req.base ≠ 0 ∨
          client.paddrLen.toNat < 2 ^ req.szlog2) ∧
          ¬ (req.szlog2 = 0 ∧ req.base = client.paddrLen)) :=
  ⟨pagefault_inRegion hc hvm, requestPages_inRegion_iff hvm,
    fun _ _ hr => requestFakeDevice_inRegion_iff hvm hr,
    fun _ _ hclient => requestClientPages_inRegion_iff hvm hclient⟩

theorem superPageSize_dvd_4M : superPageSize ∣ (0x400000 : Word).toNat := by decide
theorem superPageSize_dvd_8M : superPageSize ∣ (0x800000 : Word).toNat := by decide

def vmAt4M : Vm where
  haddrBase := 0x400000
  paddrLen := 0x800000
  vaddrOffset := 0
  wedgePaddr := 0
  wedgeVaddr := 0
  kipFp := .log2 0xbf000000 12 (by decide)
  utcbFp := .log2 0xbf100000 16 (by decide)
  deviceAccessEnabled := false
  devices := fun _ => (0, 0)
  base_aligned := superPageSize_dvd_4M
  len_aligned := superPageSize_dvd_8M
  fits := by decide

def monitorWithVmAt4M : Monitor where
  baseTid := 0x100
  vmList := fun i => if i = 1 then some vmAt4M else none
  syscallsStart := 0
  syscallsEnd := 0
  syscallStubs := 0

def tidOfVmAt4M : ThreadId := ⟨false, 0x1100, 2⟩

theorem requestPages_inRegion_4M :
    (monitorWithVmAt4M.requestPages tidOfVmAt4M (.log2 0 22 (by decide))).InRegion vmAt4M :=
  ((replies_inRegion_iff monitorWithVmAt4M tidOfVmAt4M vmAt4M (by decide) rfl).2.1 _).2
    (.inl (by decide))

theorem not_requestPages_inRegion_8M :
    ¬ (monitorWithVmAt4M.requestPages tidOfVmAt4M (.log2 0 23 (by decide))).InRegion vmAt4M ∧
    (monitorWithVmAt4M.requestPages tidOfVmAt4M (.log2 0 23 (by decide))).exception = none ∧
    (monitorWithVmAt4M.requestPages tidOfVmAt4M (.log2 0 23 (by decide))).page.map
      (fun f => (f.base, f.szlog2)) = some (0, 23) := by
  refine ⟨fun h => ?_, by decide +kernel, by decide +kernel⟩
  have hvm : monitorWithVmAt4M.tidToVm tidOfVmAt4M = some vmAt4M := rfl
  have hcond := (requestPages_inRegion_iff hvm _).1 h
  revert hcond
  decide

end Monitor
end Resourcemon
