import Afterburner.Lib.Runs
import Afterburner.Lib.Search
import Afterburner.Resourcemon.Pager

/-!
# The table of device mappings

`dev_remap_table` says which device page each slot of the monitor's window holds, with a reference
count of twelve bits.
-/

namespace Resourcemon
open Function List Option Fpage Runs

def devRemapPgsizelog2 : ℕ := 12
def devRemapPgsize : ℕ := 2 ^ devRemapPgsizelog2
def devRemapTblsize : ℕ := 2 ^ (5 + 10 + 10) / devRemapPgsize
abbrev Page := BitVec 20

structure RemapEntry where
  ref : BitVec 12
  phys : Page
  deriving DecidableEq

structure RemapTable where
  entry : ℕ → RemapEntry
  tblMaxUsed : ℕ

variable (t : RemapTable)

def reqAligned (addr : Word) : Word := addr &&& ~~~ 0xfff
def pageOf (addr : Word) : Page := (reqAligned addr >>> 12).setWidth 20

inductive KernelCall
  | sigma0GetPage (dev window : Fpage)
  | unmapFpage (f : Fpage)
  | flush (f : Fpage)

structure Outcome (α : Type) where
  table : RemapTable
  accesses : List ℕ
  calls : List KernelCall
  result : α

def RemapEntry.Maps (e : RemapEntry) (phys : Page) : Prop := e.ref ≠ 0 ∧ e.phys = phys

instance (e : RemapEntry) (phys : Page) : Decidable (e.Maps phys) :=
  inferInstanceAs (Decidable (_ ∧ _))

namespace RemapTable

def setEntry (idx : ℕ) (e : RemapEntry) : RemapTable :=
  { t with entry := update t.entry idx e }

def setRef (idx : ℕ) (ref : BitVec 12) : RemapTable :=
  t.setEntry idx { t.entry idx with ref := ref }

def setPhys (idx : ℕ) (phys : Page) : RemapTable :=
  t.setEntry idx { t.entry idx with phys := phys }

def find (t : RemapTable) (phys : Page) : Option ℕ :=
  (range (t.tblMaxUsed + 1)).find? fun idx => (t.entry idx).Maps phys

def findVisits (phys : Page) : List ℕ :=
  Search.visited (fun idx => decide ((t.entry idx).Maps phys)) (range (t.tblMaxUsed + 1))

def findFree : Option ℕ :=
  (range (devRemapTblsize + 1)).find? fun idx => (t.entry idx).ref = 0

def freeVisits : List ℕ :=
  Search.visited (fun idx => decide ((t.entry idx).ref = 0)) (range (devRemapTblsize + 1))

def grantWindow (phys : Page) (map : ℕ → List KernelCall × Bool) :
    Outcome (Option ℕ) :=
  match t.find phys with
  | some idx =>
    ⟨t.setRef idx ((t.entry idx).ref + 1), t.findVisits phys ++ [idx], [], some idx⟩
  | none =>
    let windowIdx := t.findFree.getD devRemapTblsize
    let visits := t.findVisits phys ++ t.freeVisits
    if windowIdx = devRemapTblsize then ⟨t, visits, [], none⟩
    else
      let t := { t with tblMaxUsed := max t.tblMaxUsed windowIdx }
      if (map windowIdx).2 then
        let t := t.setPhys windowIdx phys
        ⟨t.setRef windowIdx ((t.entry windowIdx).ref + 1), visits ++ [windowIdx],
          (map windowIdx).1, some windowIdx⟩
      else ⟨t, visits, (map windowIdx).1, none⟩

def lowerMax : RemapTable × List ℕ :=
  let idxs := (range (t.tblMaxUsed + 1)).reverse
  let visits := Search.visited (fun idx => decide ((t.entry idx).ref ≠ 0)) idxs
  match idxs.find? fun idx => (t.entry idx).ref ≠ 0 with
  | some idx => ({ t with tblMaxUsed := idx }, visits)
  | none => (t, visits ++ [2 ^ 32 - 1])

end RemapTable

structure RemapArea where
  base : Word
  aligned : 2 ^ 25 ∣ base.toNat

variable (area : RemapArea)

namespace RemapArea

def windowAddr (idx : ℕ) (addr : Word) : Word :=
  area.base + BitVec.ofNat 32 (idx * devRemapPgsize) + (addr &&& 0xfff)

def windowFp (idx : ℕ) : Fpage :=
  .log2 (area.windowAddr idx 0) devRemapPgsizelog2 (by decide)

def mapDevice (vm : Vm) (req first second : Fpage) (idx : ℕ) :
    List KernelCall × Bool :=
  let window := area.windowFp idx
  let get (addr : Word) : KernelCall :=
    .sigma0GetPage ((log2 addr devRemapPgsizelog2 (by decide)).addRights
      fullyAccessible) window
  if first.isNil ∨ first.rights ≠ fullyAccessible then
    match vm.clientPaddrToHaddr req.base, vm.clientPaddrToHaddr req.last with
    | some haddr, some _ => ([get (reqAligned req.base), get haddr], !second.isNil)
    | _, _ => ([get (reqAligned req.base)], false)
  else ([get (reqAligned req.base)], true)

def mapOwn (addr : Word) (first : Fpage) (idx : ℕ) : List KernelCall × Bool :=
  ([.sigma0GetPage ((log2 (reqAligned addr) devRemapPgsizelog2 (by decide)).addRights
    fullyAccessible) (area.windowFp idx)],
    !(first.isNil || first.rights != fullyAccessible))

end RemapArea
namespace RemapTable

def requestDevice (m : Monitor) (caller : ThreadId)
    (req first second : Fpage) : Outcome Reply :=
  match m.requestFakeDevice caller req with
  | some r => ⟨t, [], [], r⟩
  | none =>
    match m.tidToVm caller with
    | none => ⟨t, [], [], .noResponse⟩
    | some vm =>
      let o := t.grantWindow (pageOf req.base) (area.mapDevice vm req first second)
      { o with
        result :=
          match o.result with
          | some idx =>
            .grant req.base (.log2 (area.windowAddr idx req.base) req.szlog2 req.szlog2_le)
          | none => .nil req.base }

def getDevice (addr : Word) (first : Fpage) : Outcome Word :=
  let o := t.grantWindow (pageOf addr) (area.mapOwn addr first)
  { o with
    result :=
      match o.result with
      | some idx => area.windowAddr idx addr
      | none => 0 }

def unmapWindow (req : Fpage) (attr : Word) (old : BitVec 4) :
    Outcome (BitVec 4) :=
  let phys := pageOf req.base
  match t.find phys with
  | none => ⟨t, t.findVisits phys, [], 0⟩
  | some idx =>
    let r := if idx = t.tblMaxUsed then t.lowerMax else (t, [])
    let t' := r.1
    let visits := t.findVisits phys ++ r.2 ++ [idx]
    if attr ≠ 7 then
      ⟨t', visits, [.unmapFpage ((area.windowFp idx).addRights (attr.setWidth 4))], old⟩
    else
      let t' := t'.setRef idx ((t'.entry idx).ref - 1)
      if (t'.entry idx).ref = 0 then
        ⟨t'.setPhys idx 0, visits,
          [.flush ((area.windowFp idx).addRights fullyAccessible)], old⟩
      else
        ⟨t', visits, [.unmapFpage ((log2 (area.windowAddr idx req.base) req.szlog2
          req.szlog2_le).addRights fullyAccessible)], old⟩

end RemapTable

inductive UnmapReply
  | noResponse
  | deviceNotMapped
  | oldAttr (attr : BitVec 4)
  deriving DecidableEq

def RemapTable.unmapDevice (m : Monitor) (caller : ThreadId)
    (req : Fpage) (attr : Word) (old : BitVec 4) : Outcome UnmapReply :=
  let req := req.addRights fullyAccessible
  match m.tidToVm caller with
  | none => ⟨t, [], [], .noResponse⟩
  | some vm =>
    if req.isNil then ⟨t, [], [], .deviceNotMapped⟩
    else if isDeviceMem vm req.base req.last then
      let o := t.unmapWindow area req attr old
      { o with result := .oldAttr o.result }
    else
      match vm.clientPaddrToHaddr req.base, vm.clientPaddrToHaddr req.last with
      | some haddr, some _ =>
        ⟨t, [], [.unmapFpage ((log2 haddr req.szlog2 req.szlog2_le).addRights
          fullyAccessible)], .oldAttr 0⟩
      | _, _ => ⟨t, [], [], .oldAttr 0⟩

inductive DeviceOp
  | requestDevice (m : Monitor) (caller : ThreadId) (req first second : Fpage)
  | getDevice (addr : Word) (first : Fpage)
  | unmapDevice (m : Monitor) (caller : ThreadId) (req : Fpage) (attr : Word) (old : BitVec 4)

def DeviceOp.IsRequest : DeviceOp → Prop
  | .unmapDevice .. => False
  | _ => True

inductive TableOp
  | skip
  | grant (phys : Page) (map : ℕ → List KernelCall × Bool)
  | unmap (req : Fpage) (attr : Word) (old : BitVec 4)

def DeviceOp.perform (t : RemapTable) : DeviceOp → Outcome Unit
  | .requestDevice m caller req first second =>
    { t.requestDevice area m caller req first second with result := () }
  | .getDevice addr first => { t.getDevice area addr first with result := () }
  | .unmapDevice m caller req attr old =>
    { t.unmapDevice area m caller req attr old with result := () }

def DeviceOp.tableOp : DeviceOp → TableOp
  | .requestDevice m caller req first second =>
    match m.requestFakeDevice caller req, m.tidToVm caller with
    | none, some vm => .grant (pageOf req.base) (area.mapDevice vm req first second)
    | _, _ => .skip
  | .getDevice addr first => .grant (pageOf addr) (area.mapOwn addr first)
  | .unmapDevice m caller req attr old =>
    let req := req.addRights fullyAccessible
    match m.tidToVm caller with
    | some vm =>
      if req.isNil = false ∧ isDeviceMem vm req.base req.last then .unmap req attr old else .skip
    | none => .skip

namespace TableOp

def perform (t : RemapTable) : TableOp → Outcome Unit
  | .skip => ⟨t, [], [], ()⟩
  | .grant phys map => { t.grantWindow phys map with result := () }
  | .unmap req attr old => { t.unmapWindow area req attr old with result := () }

def granted : TableOp → Option Page
  | .grant phys map => (t.grantWindow phys map).result.map fun _ => phys
  | _ => none

def released : TableOp → Option Page
  | .unmap req attr _ => if attr = 7 then some (pageOf req.base) else none
  | _ => none

end TableOp

theorem perform_tableOp (t : RemapTable) (op : DeviceOp) :
    (op.perform area t).table = ((op.tableOp area).perform area t).table ∧
      (op.perform area t).accesses = ((op.tableOp area).perform area t).accesses ∧
      ∀ f, .flush f ∈ (op.perform area t).calls ↔
        .flush f ∈ ((op.tableOp area).perform area t).calls := by
  cases op with
  | requestDevice m caller req first second =>
    simp only [DeviceOp.perform, DeviceOp.tableOp, RemapTable.requestDevice]
    cases m.requestFakeDevice caller req with
    | some r => exact ⟨rfl, rfl, fun _ => Iff.rfl⟩
    | none =>
      cases m.tidToVm caller with
      | none => exact ⟨rfl, rfl, fun _ => Iff.rfl⟩
      | some vm => exact ⟨rfl, rfl, fun _ => Iff.rfl⟩
  | getDevice addr first => exact ⟨rfl, rfl, fun _ => Iff.rfl⟩
  | unmapDevice m caller req attr old =>
    simp only [DeviceOp.perform, DeviceOp.tableOp, RemapTable.unmapDevice]
    cases m.tidToVm caller with
    | none => exact ⟨rfl, rfl, fun _ => Iff.rfl⟩
    | some vm =>
      dsimp only
      split_ifs <;> first | exact ⟨rfl, rfl, fun _ => Iff.rfl⟩ | simp_all
      split <;> simp [TableOp.perform]

namespace RemapTable

structure WellFormed : Prop where
  maxUsed_lt : t.tblMaxUsed < devRemapTblsize
  le_maxUsed : ∀ i < devRemapTblsize, (t.entry i).ref ≠ 0 → i ≤ t.tblMaxUsed
  distinct : ∀ i < devRemapTblsize, ∀ j < devRemapTblsize, ∀ p,
    (t.entry i).Maps p → (t.entry j).Maps p → i = j

variable {t} {p : Page}
variable {i : ℕ}

theorem maps_of_find (h : t.find p = some i) : i ≤ t.tblMaxUsed ∧ (t.entry i).Maps p := by
  have hmem := mem_range.1 (mem_of_find?_eq_some h)
  exact ⟨by omega, by simpa using find?_some h⟩

theorem find_eq_none_iff (hwf : t.WellFormed) :
    t.find p = none ↔ ∀ i < devRemapTblsize, ¬ (t.entry i).Maps p := by
  rw [find, find?_eq_none]
  constructor
  · intro h i hi hm
    have hle := hwf.le_maxUsed i hi hm.1
    exact h i (mem_range.2 (by omega)) (by simpa using hm)
  · intro h i hi hm
    have := hwf.maxUsed_lt
    exact h i (by have := mem_range.1 hi; omega) (by simpa using hm)

theorem find_eq_some_iff (hwf : t.WellFormed) :
    t.find p = some i ↔ i < devRemapTblsize ∧ (t.entry i).Maps p := by
  constructor
  · intro h
    obtain ⟨hle, hm⟩ := maps_of_find h
    exact ⟨lt_of_le_of_lt hle hwf.maxUsed_lt, hm⟩
  · rintro ⟨hi, hm⟩
    cases hf : t.find p with
    | none => exact absurd hm ((find_eq_none_iff hwf).1 hf i hi)
    | some j =>
      obtain ⟨hle, hj⟩ := maps_of_find hf
      rw [hwf.distinct j (lt_of_le_of_lt hle hwf.maxUsed_lt) i hi p hj hm]

theorem lt_of_mem_findVisits (hwf : t.WellFormed) (h : i ∈ t.findVisits p) :
    i < devRemapTblsize := by
  have := hwf.maxUsed_lt
  have := mem_range.1 (Search.visited_subset _ h)
  omega

theorem findFree_eq_some (h : t.findFree = some i) :
    i ≤ devRemapTblsize ∧ (t.entry i).ref = 0 ∧ ∀ j ∈ t.freeVisits, j ≤ i := by
  have hmem := mem_range.1 (mem_of_find?_eq_some h)
  exact ⟨by omega, by simpa using find?_some h,
    fun j hj => Search.le_of_mem_visited pairwise_lt_range h hj⟩

theorem findFree_of_full (h : ∀ i < devRemapTblsize, (t.entry i).ref ≠ 0) :
    t.findFree.getD devRemapTblsize = devRemapTblsize ∧ devRemapTblsize ∈ t.freeVisits := by
  cases hf : t.findFree with
  | none =>
    refine ⟨rfl, ?_⟩
    rw [freeVisits, Search.visited_of_find?_eq_none hf]
    exact mem_range.2 (Nat.lt_succ_self _)
  | some i =>
    obtain ⟨hle, hfree, -⟩ := findFree_eq_some hf
    obtain rfl : i = devRemapTblsize := by
      by_contra hne
      exact h i (by omega) hfree
    exact ⟨rfl, Search.mem_visited_of_find?_eq_some hf⟩

theorem findFree_of_free (hi : i < devRemapTblsize) (h : (t.entry i).ref = 0) :
    ∃ k < devRemapTblsize, t.findFree = some k ∧ (t.entry k).ref = 0 ∧
      ∀ j ∈ t.freeVisits, j < devRemapTblsize := by
  cases hf : t.findFree with
  | none =>
    have := find?_eq_none.1 hf i (mem_range.2 (by omega))
    simp [h] at this
  | some k =>
    obtain ⟨-, hfree, hvisits⟩ := findFree_eq_some hf
    have hk : k ≤ i := by
      by_contra hlt
      have hfirst := (find?_range_eq_some.1 hf).2.2 i (by omega)
      simp [h] at hfirst
    exact ⟨k, by omega, rfl, hfree, fun j hj => by have := hvisits j hj; omega⟩

@[simp] theorem entry_setEntry_self (i : ℕ) (e : RemapEntry) : (t.setEntry i e).entry i = e :=
  update_self ..

theorem entry_setEntry_of_ne {j : ℕ} (h : j ≠ i) (e : RemapEntry) :
    (t.setEntry i e).entry j = t.entry j := update_of_ne h ..

theorem grantWindow_of_maps (hwf : t.WellFormed) (hi : i < devRemapTblsize)
    (hm : (t.entry i).Maps p) (map : ℕ → List KernelCall × Bool) :
    t.grantWindow p map =
      ⟨t.setRef i ((t.entry i).ref + 1), t.findVisits p ++ [i], [], some i⟩ := by
  rw [grantWindow, (find_eq_some_iff hwf).2 ⟨hi, hm⟩]

section
variable (hwf : t.WellFormed) (hnone : ∀ i < devRemapTblsize, ¬ (t.entry i).Maps p)
include hwf hnone

theorem grantWindow_of_full (hfull : ∀ i < devRemapTblsize, (t.entry i).ref ≠ 0)
    (map : ℕ → List KernelCall × Bool) :
    t.grantWindow p map = ⟨t, t.findVisits p ++ t.freeVisits, [], none⟩ := by
  rw [grantWindow, (find_eq_none_iff hwf).2 hnone]
  exact if_pos (findFree_of_full hfull).1

theorem grantWindow_of_free {k : ℕ} (hk : k < devRemapTblsize) (hfree : t.findFree = some k)
    (href : (t.entry k).ref = 0) (map : ℕ → List KernelCall × Bool) :
    t.grantWindow p map =
      if (map k).2 then
        ⟨⟨update t.entry k ⟨1, p⟩, max t.tblMaxUsed k⟩,
          t.findVisits p ++ t.freeVisits ++ [k], (map k).1, some k⟩
      else ⟨⟨t.entry, max t.tblMaxUsed k⟩, t.findVisits p ++ t.freeVisits, (map k).1, none⟩ := by
  rw [grantWindow, (find_eq_none_iff hwf).2 hnone]
  simp only [hfree, getD_some, if_neg hk.ne]
  cases (map k).2 with
  | false => rfl
  | true => simp [setRef, setPhys, setEntry, href]

end

theorem entry_grantWindow_of_none {map : ℕ → List KernelCall × Bool}
    (h : (t.grantWindow p map).result = none) : (t.grantWindow p map).table.entry = t.entry := by
  unfold grantWindow at h ⊢
  cases hf : t.find p with
  | some idx => simp [hf] at h
  | none =>
    simp only [hf] at h ⊢
    split_ifs at h ⊢ <;> rfl

theorem lowerMax_of_used (h : (t.entry t.tblMaxUsed).ref ≠ 0) :
    t.lowerMax = (t, [t.tblMaxUsed]) := by
  have hhead : (range (t.tblMaxUsed + 1)).reverse =
      t.tblMaxUsed :: (range t.tblMaxUsed).reverse := by
    rw [range_succ, reverse_append]
    rfl
  rw [lowerMax, hhead, find?_cons_of_pos (by simpa using h), Search.visited,
    if_pos (by simpa using h)]

theorem unmapWindow_of_maps (hwf : t.WellFormed) (area : RemapArea) {req : Fpage}
    (hi : i < devRemapTblsize) (hm : (t.entry i).Maps (pageOf req.base)) (attr : Word)
    (old : BitVec 4) :
    (t.unmapWindow area req attr old).table =
        (if attr ≠ 7 then t
        else if (t.entry i).ref - 1 = 0 then t.setEntry i ⟨0, 0⟩
        else t.setRef i ((t.entry i).ref - 1)) ∧
      (∀ j ∈ (t.unmapWindow area req attr old).accesses, j < devRemapTblsize) ∧
      ∀ f, .flush f ∈ (t.unmapWindow area req attr old).calls ↔
        attr = 7 ∧ (t.entry i).ref - 1 = 0 ∧
          f = (area.windowFp i).addRights fullyAccessible := by
  -- the loop that looks for the highest slot in use ends where it starts
  obtain ⟨visits, hlower, hvisits⟩ : ∃ visits : List ℕ,
      (if i = t.tblMaxUsed then t.lowerMax else (t, [])) = (t, visits) ∧
        ∀ j ∈ visits, j < devRemapTblsize := by
    split_ifs with hmax
    · subst hmax
      exact ⟨_, lowerMax_of_used hm.1, forall_mem_singleton.2 hi⟩
    · exact ⟨[], rfl, forall_mem_nil _⟩
  have hinside : ∀ j ∈ t.findVisits (pageOf req.base) ++ visits ++ [i], j < devRemapTblsize :=
    forall_mem_append.2 ⟨forall_mem_append.2 ⟨fun j => lt_of_mem_findVisits hwf, hvisits⟩,
      forall_mem_singleton.2 hi⟩
  unfold unmapWindow
  simp only [(find_eq_some_iff hwf).2 ⟨hi, hm⟩, hlower]
  simp only [setRef, entry_setEntry_self]
  split_ifs with hattr hlast
  · exact ⟨rfl, hinside, by simp_all⟩
  · grind [setPhys, entry_setEntry_self, setEntry, update_idem]
  · exact ⟨rfl, hinside, by simp_all⟩

theorem unmapWindow_of_none (hwf : t.WellFormed) (area : RemapArea) {req : Fpage}
    (hnone : ∀ i < devRemapTblsize, ¬ (t.entry i).Maps (pageOf req.base)) (attr : Word)
    (old : BitVec 4) :
    t.unmapWindow area req attr old = ⟨t, t.findVisits (pageOf req.base), [], 0⟩ := by
  rw [unmapWindow, (find_eq_none_iff hwf).2 hnone]

end RemapTable

structure Counted where
  table : RemapTable
  count : Page → ℕ
  accessed : List ℕ

variable (c : Counted)

namespace Counted

def step (op : DeviceOp) : Counted where
  table := (op.perform area c.table).table
  count p :=
    if (op.tableOp area).granted c.table = some p then c.count p + 1
    else if (op.tableOp area).released = some p then c.count p - 1
    else c.count p
  accessed := c.accessed ++ (op.perform area c.table).accesses

def init (beyond : ℕ → RemapEntry) : Counted where
  table :=
    { entry := fun idx => if idx < devRemapTblsize then ⟨0, 0⟩ else beyond idx
      tblMaxUsed := 0 }
  count _ := 0
  accessed := []

structure Counts (count : Page → ℕ) : Prop where
  ref : ∀ i < devRemapTblsize, ∀ p, (t.entry i).Maps p → (t.entry i).ref.toNat = count p
  slot : ∀ p, count p ≠ 0 → ∃ i < devRemapTblsize, (t.entry i).Maps p

structure Sound : Prop where
  wellFormed : c.table.WellFormed
  counts : Counts c.table c.count
  inside : ∀ i ∈ c.accessed, i < devRemapTblsize

end Counted

def RemapTable.GrantGuard (p : Page) : Prop :=
  (∀ i < devRemapTblsize, (t.entry i).Maps p → (t.entry i).ref ≠ 4095) ∧
    ((∀ i < devRemapTblsize, ¬ (t.entry i).Maps p) →
      ∃ i < devRemapTblsize, (t.entry i).ref = 0)

def TableOp.Guard : TableOp → Prop
  | .grant phys _ => t.GrantGuard phys
  | _ => True

def DeviceOp.Guard (area : RemapArea) (c : Counted) (op : DeviceOp) : Prop :=
  (op.tableOp area).Guard c.table

namespace Counted
variable {t} {count : Page → ℕ} {p : Page}

/-! #### Handing out a reference -/

def Leaves (t : RemapTable) (count : Page → ℕ) (op : TableOp) : Prop :=
  (op.perform area t).table.WellFormed ∧
    Counts (op.perform area t).table (fun p =>
      if op.granted t = some p then count p + 1
      else if op.released = some p then count p - 1
      else count p) ∧
    ∀ i ∈ (op.perform area t).accesses, i < devRemapTblsize

theorem toNat_add_one {x : BitVec 12} (h : x ≠ 4095) : (x + 1).toNat = x.toNat + 1 := by
  have hne : x.toNat ≠ 4095 := fun he => h (BitVec.eq_of_toNat_eq he)
  have hone : (1 : BitVec 12).toNat = 1 := rfl
  rw [BitVec.toNat_add]
  omega

theorem toNat_sub_one {x : BitVec 12} (h : x ≠ 0) : (x - 1).toNat = x.toNat - 1 := by
  have hne : x.toNat ≠ 0 := fun he => h (BitVec.eq_of_toNat_eq he)
  have hone : (1 : BitVec 12).toNat = 1 := rfl
  rw [BitVec.toNat_sub]
  omega

section
variable (hwf : t.WellFormed) (hc : Counts t count)
include hwf hc

theorem update_slot {i max : ℕ} (hi : i < devRemapTblsize)
    (hmax : t.tblMaxUsed ≤ max ∧ max < devRemapTblsize ∧ i ≤ max)
    (hslot : ∀ j < devRemapTblsize, (t.entry j).Maps p → j = i)
    (hold : ∀ q, (t.entry i).Maps q → q = p) {e : RemapEntry} {count' : Page → ℕ}
    (hcount : ∀ q, q ≠ p → count' q = count q)
    (he : e.Maps p ∧ e.ref.toNat = count' p ∨ e.ref = 0 ∧ count' p = 0) :
    RemapTable.WellFormed ⟨update t.entry i e, max⟩ ∧
      Counts ⟨update t.entry i e, max⟩ count' := by
  have hentry : ∀ j, update t.entry i e j = if j = i then e else t.entry j :=
    fun j => update_apply ..
  -- what a slot holds now: `i` the page `p`, the others what they held
  have hmaps : ∀ j < devRemapTblsize, ∀ q, (update t.entry i e j).Maps q →
      j = i ∧ q = p ∨ j ≠ i ∧ q ≠ p ∧ (t.entry j).Maps q := by
    grind [RemapEntry.Maps]
  refine ⟨⟨hmax.2.1, fun j hj hr => ?_, fun j hj k hk q hmj hmk => ?_⟩,
    ⟨fun j hj q hm => ?_, fun q hq => ?_⟩⟩
  · have hle := hwf.le_maxUsed j hj
    grind [RemapEntry.Maps]
  · have hinj := hwf.distinct j hj k hk q
    grind
  · have href := hc.ref j hj q
    grind [RemapEntry.Maps]
  · have hold' := hc.slot q
    grind [RemapEntry.Maps]

theorem leaves_grant_of_maps_iff {i : ℕ} (hi : i < devRemapTblsize) (hm : (t.entry i).Maps p)
    (map : ℕ → List KernelCall × Bool) :
    Leaves area t count (.grant p map) ↔ (t.entry i).ref ≠ 4095 := by
  have hgrant := t.grantWindow_of_maps hwf hi hm map
  have hgranted : (TableOp.grant p map).granted t = some p := by
    rw [TableOp.granted, hgrant]
    rfl
  have htable : t.setRef i ((t.entry i).ref + 1) =
      ⟨update t.entry i ⟨(t.entry i).ref + 1, p⟩, t.tblMaxUsed⟩ := by
    rw [← hm.2]
    rfl
  have hslot : ∀ j < devRemapTblsize, (t.entry j).Maps p → j = i :=
    fun j hj hmj => hwf.distinct j hj i hi p hmj hm
  rw [Leaves, TableOp.perform, hgrant, hgranted]
  simp only [some.injEq, htable]
  constructor
  · rintro ⟨-, hcounts, -⟩ hmax
    -- the count has wrapped, and the page has lost its slot
    obtain ⟨j, hj, hmj⟩ := hcounts.slot p (by simp)
    by_cases hji : j = i
    · subst hji
      refine hmj.1 ?_
      simp only [update_self, hmax]
      rfl
    · exact hji (hslot j hj (by simpa [hji] using hmj))
  · intro hmax
    refine and_assoc.1 ⟨update_slot hwf hc hi
      ⟨le_rfl, hwf.maxUsed_lt, hwf.le_maxUsed i hi hm.1⟩ hslot (fun q hq => hq.2.symm.trans hm.2)
      (fun q hq => ?_) (.inl ⟨⟨fun h0 => ?_, rfl⟩, ?_⟩), forall_mem_append.2
        ⟨fun j => RemapTable.lt_of_mem_findVisits hwf, forall_mem_singleton.2 hi⟩⟩
    · rw [if_neg (Ne.symm hq), if_neg (by simp [TableOp.released])]
    · have := congrArg BitVec.toNat h0
      have hz : (0 : BitVec 12).toNat = 0 := rfl
      rw [toNat_add_one hmax, hz] at this
      omega
    · rw [if_pos rfl, toNat_add_one hmax, hc.ref i hi p hm]

theorem leaves_of_same {area : RemapArea} {op : TableOp} (htable : (op.perform area t).table = t)
    (hgranted : op.granted t = none) (hreleased : ∀ q, op.released = some q → count q = 0)
    (hinside : ∀ i ∈ (op.perform area t).accesses, i < devRemapTblsize) :
    Leaves area t count op := by
  have hsame : (fun p => if op.granted t = some p then count p + 1
      else if op.released = some p then count p - 1 else count p) = count := by
    funext q
    rw [hgranted, if_neg (by simp)]
    split_ifs with hr
    · rw [hreleased q hr]
    · rfl
  rw [Leaves, hsame, htable]
  exact ⟨hwf, hc, hinside⟩

theorem leaves_grant_of_none_iff (hnone : ∀ i < devRemapTblsize, ¬ (t.entry i).Maps p)
    (map : ℕ → List KernelCall × Bool) :
    Leaves area t count (.grant p map) ↔ ∃ i < devRemapTblsize, (t.entry i).ref = 0 := by
  constructor
  · rintro ⟨-, -, hinside⟩
    by_contra hfull
    push Not at hfull
    have hgrant := t.grantWindow_of_full hwf hnone hfull map
    rw [TableOp.perform, hgrant] at hinside
    exact absurd (hinside devRemapTblsize
      (mem_append_right _ (RemapTable.findFree_of_full hfull).2)) (lt_irrefl _)
  · rintro ⟨i, hi, hfree⟩
    obtain ⟨k, hk, hfind, href, hvisits⟩ := RemapTable.findFree_of_free hi hfree
    have hgrant := t.grantWindow_of_free hwf hnone hk hfind href map
    have hinside : ∀ j ∈ t.findVisits p ++ t.freeVisits, j < devRemapTblsize := by
      exact forall_mem_append.2 ⟨fun j => RemapTable.lt_of_mem_findVisits hwf, hvisits⟩
    have hmax : t.tblMaxUsed ≤ max t.tblMaxUsed k ∧ max t.tblMaxUsed k < devRemapTblsize ∧
        k ≤ max t.tblMaxUsed k :=
      ⟨le_max_left _ _, max_lt hwf.maxUsed_lt hk, le_max_right _ _⟩
    have hslot : ∀ j < devRemapTblsize, (t.entry j).Maps p → j = k :=
      fun j hj hmj => absurd hmj (hnone j hj)
    have hold : ∀ q, (t.entry k).Maps q → q = p := fun q hq => absurd href hq.1
    have hzero : count p = 0 := by
      by_contra hne
      obtain ⟨j, hj, hmj⟩ := hc.slot p hne
      exact hnone j hj hmj
    cases hmap : (map k).2 with
    | true =>
      rw [hmap] at hgrant
      have hgranted : (TableOp.grant p map).granted t = some p := by
        rw [TableOp.granted, hgrant]
        rfl
      rw [Leaves, TableOp.perform, hgrant, hgranted]
      simp only [some.injEq]
      refine and_assoc.1 ⟨update_slot hwf hc hk hmax hslot hold (fun q hq => ?_)
        (.inl ⟨⟨show (1 : BitVec 12) ≠ 0 by decide, rfl⟩, ?_⟩),
        forall_mem_append.2 ⟨hinside, forall_mem_singleton.2 hk⟩⟩
      · rw [if_neg (Ne.symm hq), if_neg (by simp [TableOp.released])]
      · simp [hzero]
    | false =>
      rw [hmap] at hgrant
      have hgranted : (TableOp.grant p map).granted t = none := by
        rw [TableOp.granted, hgrant]
        rfl
      rw [Leaves, TableOp.perform, hgrant, hgranted]
      have hsame : t.entry = update t.entry k (t.entry k) :=
        (update_eq_self k t.entry).symm
      rw [hsame]
      refine and_assoc.1 ⟨update_slot hwf hc hk hmax hslot hold (fun q hq => ?_)
        (.inr ⟨href, ?_⟩), hinside⟩
      · rw [if_neg (by simp), if_neg (by simp [TableOp.released])]
      · rw [if_neg (by simp), if_neg (by simp [TableOp.released]), hzero]

end

/-! #### Giving a reference back -/

theorem leaves_unmap (hwf : t.WellFormed) (hc : Counts t count) (req : Fpage) (attr : Word)
    (old : BitVec 4) : Leaves area t count (.unmap req attr old) := by
  by_cases hnone : ∀ i < devRemapTblsize, ¬ (t.entry i).Maps (pageOf req.base)
  · have hunmap := t.unmapWindow_of_none hwf area hnone attr old
    refine leaves_of_same hwf hc ?_ rfl (fun q hq => ?_) fun i hi => ?_
    · rw [TableOp.perform, hunmap]
    · rw [TableOp.released] at hq
      split_ifs at hq
      obtain rfl := some.inj hq
      by_contra hne
      obtain ⟨j, hj, hmj⟩ := hc.slot _ hne
      exact hnone j hj hmj
    · rw [TableOp.perform, hunmap] at hi
      exact RemapTable.lt_of_mem_findVisits hwf hi
  · push Not at hnone
    obtain ⟨i, hi, hm⟩ := hnone
    obtain ⟨htable, hinside, -⟩ := t.unmapWindow_of_maps hwf area hi hm attr old
    by_cases hattr : attr = 7
    · subst hattr
      have hgranted : (TableOp.unmap req 7 old).granted t = none := rfl
      have hreleased : (TableOp.unmap req 7 old).released = some (pageOf req.base) := by
        rw [TableOp.released, if_pos rfl]
      have hslot : ∀ j < devRemapTblsize, (t.entry j).Maps (pageOf req.base) → j = i :=
        fun j hj hmj => hwf.distinct j hj i hi _ hmj hm
      have hmax := hwf.le_maxUsed i hi hm.1
      have hcount := hc.ref i hi _ hm
      have hsub := toNat_sub_one hm.1
      -- the slot with one reference less, or a free one
      have hnew : ∃ e : RemapEntry, (t.unmapWindow area req 7 old).table =
          ⟨update t.entry i e, t.tblMaxUsed⟩ ∧
            (e.Maps (pageOf req.base) ∧ e.ref.toNat = count (pageOf req.base) - 1 ∨
              e.ref = 0 ∧ count (pageOf req.base) - 1 = 0) := by
        rw [htable]
        by_cases hlast : (t.entry i).ref - 1 = 0
        · refine ⟨⟨0, 0⟩, by rw [if_pos hlast]; rfl, .inr ⟨rfl, ?_⟩⟩
          rw [← hcount, ← hsub, hlast]
          rfl
        · refine ⟨⟨(t.entry i).ref - 1, pageOf req.base⟩, ?_, .inl ⟨⟨hlast, rfl⟩, ?_⟩⟩
          · rw [if_neg hlast, ← hm.2]
            rfl
          · rw [← hcount, ← hsub]
      obtain ⟨e, he, hpage⟩ := hnew
      rw [Leaves, TableOp.perform, hgranted, hreleased]
      simp only [he, reduceCtorEq, if_false, some.injEq]
      refine and_assoc.1 ⟨update_slot hwf hc hi ⟨le_rfl, hwf.maxUsed_lt, hmax⟩ hslot
        (fun q hq => hq.2.symm.trans hm.2) (fun q hq => if_neg (Ne.symm hq)) ?_, hinside⟩
      simpa using hpage
    · refine leaves_of_same hwf hc ?_ rfl (fun q hq => ?_) hinside
      · rw [TableOp.perform, htable, if_pos hattr]
      · simp_all [TableOp.released]

theorem leaves_iff (hwf : t.WellFormed) (hc : Counts t count) (op : TableOp) :
    Leaves area t count op ↔ op.Guard t := by
  cases op with
  | skip =>
    refine iff_of_true (leaves_of_same hwf hc rfl rfl (fun q hq => ?_) fun i hi => ?_) trivial
    · cases hq
    · cases hi
  | grant p map =>
    by_cases hnone : ∀ i < devRemapTblsize, ¬ (t.entry i).Maps p
    · rw [leaves_grant_of_none_iff area hwf hc hnone map]
      exact ⟨fun h => ⟨fun i hi hm => absurd hm (hnone i hi), fun _ => h⟩, fun h => h.2 hnone⟩
    · push Not at hnone
      obtain ⟨i, hi, hm⟩ := hnone
      rw [leaves_grant_of_maps_iff area hwf hc hi hm map]
      refine ⟨fun h => ⟨fun j hj hmj => ?_, fun hno => absurd hm (hno i hi)⟩, fun h => h.1 i hi hm⟩
      rwa [hwf.distinct j hj i hi p hmj hm]
  | unmap req attr old => exact iff_of_true (leaves_unmap area hwf hc req attr old) trivial

theorem sound_step_iff {area : RemapArea} {c : Counted} (h : c.Sound) (op : DeviceOp) :
    (c.step area op).Sound ↔ op.Guard area c := by
  obtain ⟨htable, haccesses, -⟩ := perform_tableOp area c.table op
  rw [DeviceOp.Guard, ← leaves_iff area h.wellFormed h.counts, Leaves, ← htable, ← haccesses]
  constructor
  · exact fun hs => ⟨hs.wellFormed, hs.counts, fun i hi => hs.inside i (mem_append_right _ hi)⟩
  · rintro ⟨hwf, hcounts, hinside⟩
    exact ⟨hwf, hcounts, forall_mem_append.2 ⟨h.inside, hinside⟩⟩

theorem sound_init (beyond : ℕ → RemapEntry) : (init beyond).Sound := by
  have hfree : ∀ i < devRemapTblsize, ((init beyond).table.entry i).ref = 0 := by simp_all [init]
  refine ⟨⟨show 0 < devRemapTblsize by decide, fun i hi hr => absurd (hfree i hi) hr,
    fun i hi j _ p hm _ => absurd (hfree i hi) hm.1⟩,
    ⟨fun i hi p hm => absurd (hfree i hi) hm.1, fun p hp => absurd rfl hp⟩, fun i hi => ?_⟩
  cases hi

theorem granted_of_guard (hwf : t.WellFormed) (h : t.GrantGuard p)
    {map : ℕ → List KernelCall × Bool} (hmap : ∀ k, (map k).2 = true) :
    (TableOp.grant p map).granted t = some p := by
  rw [TableOp.granted]
  by_cases hnone : ∀ i < devRemapTblsize, ¬ (t.entry i).Maps p
  · obtain ⟨i, hi, hfree⟩ := h.2 hnone
    obtain ⟨k, hk, hfind, href, -⟩ := RemapTable.findFree_of_free hi hfree
    rw [t.grantWindow_of_free hwf hnone hk hfind href map, if_pos (hmap k)]
    rfl
  · push Not at hnone
    obtain ⟨i, hi, hm⟩ := hnone
    rw [t.grantWindow_of_maps hwf hi hm map]
    rfl

theorem sound_run {area : RemapArea} {c : Counted} (h : c.Sound) {ops : List DeviceOp}
    (hguard : Runs.Guarded (step area) (fun c op => op.Guard area c) c ops) :
    (run (step area) c ops).Sound :=
  run_invariant (I := Sound) (fun _ op hs hg => (sound_step_iff hs op).2 hg) h hguard

theorem entry_step_of_not_granted {op : DeviceOp} (hop : op.IsRequest)
    (h : (op.tableOp area).granted c.table = none) :
    (c.step area op).table.entry = c.table.entry := by
  have hstep : (c.step area op).table = ((op.tableOp area).perform area c.table).table :=
    (perform_tableOp area c.table op).1
  rw [hstep]
  cases htop : op.tableOp area with
  | skip => rfl
  | grant p map =>
    rw [htop, TableOp.granted, map_eq_none_iff] at h
    exact RemapTable.entry_grantWindow_of_none h
  | unmap req attr old =>
    cases op with
    | unmapDevice => cases hop
    | getDevice => cases htop
    | requestDevice m caller req first second =>
      rw [DeviceOp.tableOp] at htop
      split at htop <;> cases htop

/-- **When the table of device mappings is sound.** Every run of calls that meet their condition
leaves a sound table, and a call that does not makes it unsound. In any state, a request that fails
changes no slot. -/
theorem sound_of_guarded_run (area : RemapArea) (beyond : ℕ → RemapEntry) (ops : List DeviceOp)
    (hguard : Runs.Guarded (step area) (fun c op => op.Guard area c) (init beyond) ops) :
    let c := run (step area) (init beyond) ops
    c.Sound ∧ (∀ op, (c.step area op).Sound ↔ op.Guard area c) ∧
      ∀ (c : Counted) (op : DeviceOp), op.IsRequest → (op.tableOp area).granted c.table = none →
        (c.step area op).table.entry = c.table.entry := by
  intro c
  have hsound : c.Sound := sound_run (sound_init beyond) hguard
  exact ⟨hsound, fun op => sound_step_iff hsound op,
    fun c op hop hnone => entry_step_of_not_granted area c hop hnone⟩

section OnePage

def areaAt2G : RemapArea := ⟨0x80000000, by decide⟩
def apicPage : Fpage := (log2 0xfee00000 12 pageBits_le).addRights fullyAccessible
def getApicPage : DeviceOp := .getDevice 0xfee00000 apicPage
def zeroes : ℕ → RemapEntry := fun _ => ⟨0, 0⟩

theorem sound_getApicPage : (run (step areaAt2G) (init zeroes) [getApicPage]).Sound := by
  have hguard : Runs.Guarded (step areaAt2G) (fun c op => op.Guard areaAt2G c) (init zeroes)
      [getApicPage] := by
    refine ⟨⟨fun i hi hm => absurd ?_ hm.1, fun _ => ⟨0, by decide, rfl⟩⟩, trivial⟩
    simp [init, hi]
  exact (sound_of_guarded_run areaAt2G zeroes [getApicPage] hguard).1

theorem count_getApicPage {n : ℕ} (hn : n ≤ 4095) :
    let c := run (step areaAt2G) (init zeroes) (replicate n getApicPage)
    c.Sound ∧ c.count 0xfee00 = n ∧ ∀ q, q ≠ 0xfee00 → c.count q = 0 := by
  induction n with
  | zero => exact ⟨sound_init zeroes, rfl, fun _ _ => rfl⟩
  | succ n ih =>
    obtain ⟨hsound, hcount, hothers⟩ := ih (by omega)
    rw [replicate_succ', run_append]
    generalize run (step areaAt2G) (init zeroes) (replicate n getApicPage) = c at *
    -- only the slot of the page is in use
    have hused : ∀ i < devRemapTblsize, (c.table.entry i).ref ≠ 0 →
        (c.table.entry i).Maps 0xfee00 := by
      intro i hi hr
      refine ⟨hr, ?_⟩
      by_contra hq
      have hzero := (hsound.counts.ref i hi _ ⟨hr, rfl⟩).trans (hothers _ hq)
      exact hr (BitVec.eq_of_toNat_eq hzero)
    have hguard : c.table.GrantGuard 0xfee00 := by
      refine ⟨fun i hi hm hmax => ?_, fun _ => ?_⟩
      · have hcount' := hsound.counts.ref i hi _ hm
        have hval : (4095 : BitVec 12).toNat = 4095 := rfl
        rw [hmax] at hcount'
        omega
      · by_contra hfull
        push Not at hfull
        have h0 := hused 0 (by decide) (hfull 0 (by decide))
        have h1 := hused 1 (by decide) (hfull 1 (by decide))
        exact absurd (hsound.wellFormed.distinct 0 (by decide) 1 (by decide) _ h0 h1) (by decide)
    have hgranted : (getApicPage.tableOp areaAt2G).granted c.table = some 0xfee00 :=
      granted_of_guard hsound.wellFormed hguard fun _ => rfl
    refine ⟨(sound_step_iff hsound getApicPage).2 hguard, ?_, fun q hq => ?_⟩
    · show (if _ then _ else _) = _
      rw [if_pos hgranted, hcount]
    · show (if _ then _ else _) = _
      rw [hgranted, if_neg (by simpa using Ne.symm hq)]
      exact hothers q hq

theorem not_sound_getApicPage :
    ¬ (run (step areaAt2G) (init zeroes) (replicate 4096 getApicPage)).Sound := by
  obtain ⟨hsound, hcount, -⟩ := count_getApicPage le_rfl
  rw [replicate_succ', run_append]
  rw [run_cons, run_nil, sound_step_iff hsound]
  intro hg
  obtain ⟨i, hi, hm⟩ := hsound.counts.slot 0xfee00 (by rw [hcount]; decide)
  refine hg.1 i hi hm (BitVec.eq_of_toNat_eq ?_)
  rw [hsound.counts.ref i hi _ hm, hcount]
  rfl

end OnePage
end Counted
end Resourcemon
