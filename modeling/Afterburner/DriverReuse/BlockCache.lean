import Afterburner.Lib.Bits
import Afterburner.Lib.Cells
import Afterburner.Lib.Runs

/-!
# The energy-aware block cache

Blocks of 32 sectors are cached in flash: whole ones in the read cache, masked sectors in the write
cache, a log. The accounting of the flash blocks is a partition that every operation keeps or
breaks; the data is compared with a plain store. `BUG()` and `panic()` end the run.
-/

namespace DriverReuse.BlockCache
open Runs Cells List Option

def objectSize : ℕ := 32

/-- `BLOCK_MASK`, in a mask of 32 bits. -/
def blockMask (offset size : ℕ) : BitVec 32 := ((1#64 <<< size - 1#64) <<< offset).setWidth 32

structure CacheEntry where
  hdSector : ℕ
  fdSector : ℕ
  mask : BitVec 32
  deriving DecidableEq, Repr

inductive Map
  | read
  | write
  deriving DecidableEq, Repr

/-- The two maps, the free list, the two devices and the power state of the disk. -/
structure Ebc (δ : Type) where
  /-- `read_cache` and `write_cache`: the entry of a key and the map that has it. A key is inserted
  when neither has it, and moved from one to the other. -/
  cache : ℕ → Option (Map × CacheEntry)
  freeList : List ℕ
  disk : ℕ → δ
  /-- The flash has `fsect` sectors; `flash` behind them is what a failed read leaves. -/
  flash : ℕ → δ
  fsect : ℕ
  /-- `disk_state` -/
  standby : Bool

variable {δ : Type} (s : Ebc δ)
namespace Ebc

def cinitCaches (freeEntries fsect : ℕ) (disk flash : ℕ → δ) : Ebc δ :=
  ⟨fun _ => none, (range freeEntries).map (· * objectSize), disk, flash, fsect, false⟩

/-- A transfer to the flash, of which only the sectors it has are written. -/
def putFlash (a : ℕ) (xs : List δ) : ℕ → δ := fun i =>
  if i < s.fsect then put s.flash a xs i else s.flash i

/-- `disk_activity` is `BUG()`. -/
def diskActivity (_ : Ebc δ) : Option (Ebc δ) := none

/-- `sector_num & OBJECT_MASK` -/
def keyOf (sector : ℕ) : ℕ := sector - sector % objectSize

def cflushRead (key : ℕ) : Ebc δ :=
  match s.cache key with
  | some (.read, _) =>
    { s with cache := Function.update s.cache key none, freeList := s.freeList ++ [key] }
  | _ => s

def copyBack (e : CacheEntry) (i n : ℕ) (disk : ℕ → δ) : ℕ → δ :=
  put disk (e.hdSector + i) ((range n).map fun j => s.flash (e.fdSector + i + j))

def writtenBack (e : CacheEntry) : ℕ → δ :=
  if e.mask = blockMask 0 objectSize then s.copyBack e 0 objectSize s.disk
  else (range objectSize).foldl
    (fun disk i => if e.mask.getLsbD i then s.copyBack e i 1 disk else disk) s.disk

def cflushWrite (key : ℕ) : Ebc δ :=
  match s.cache key with
  | some (.write, e) =>
    { s with
      cache := Function.update s.cache key none
      disk := s.writtenBack e
      freeList := s.freeList ++ [key] }
  | _ => s

/-- `entry` and `node`: whether the two allocations succeed. The block is taken first. -/
def cfetchRead (key : ℕ) (entry node : Bool) : Option (Ebc δ) :=
  match s.cache key, s.freeList with
  | none, block :: rest =>
    if entry = false then some { s with freeList := rest }
    else if node = false then none
    else some { s with
      freeList := rest
      flash := s.putFlash block ((range objectSize).map fun i => s.disk (key + i))
      cache := Function.update s.cache key
        (some (.read, ⟨key, block, blockMask 0 objectSize⟩)) }
  | _, _ => some s

def cremoveLastRead (key : ℕ) : Ebc δ :=
  match s.cache key with
  | some (.read, _) => { s with cache := Function.update s.cache key none }
  | _ => s

inductive Device
  | disk
  | flash
  deriving DecidableEq, Repr

def readTranslation (sector size : ℕ) : Option (Device × ℕ × Ebc δ) :=
  let key := keyOf sector
  let offset := sector % objectSize
  match s.cache key with
  | some (.read, e) => some (.flash, e.fdSector + offset, s)
  | some (.write, e) =>
    if blockMask offset size &&& e.mask ≠ 0#32 then
      if offset + size ≤ objectSize then some (.flash, e.fdSector + offset, s) else none
    else s.diskActivity.map fun s => (.disk, sector, s.cflushWrite key)
  | none => s.diskActivity.map fun s => (.disk, sector, s)

/-- `memory`: whether the allocations succeed, without which the kernel panics. -/
def writeTranslation (sector size : ℕ) (memory : Bool) :
    Option (Device × ℕ × Ebc δ) :=
  let key := keyOf sector
  let offset := sector % objectSize
  match s.cache key with
  | some (.read, e) =>
    if memory then some (.flash, e.fdSector + offset,
      { s with cache := Function.update s.cache key (some (.write, e)) })
    else none
  | some (.write, e) => some (.flash, e.fdSector + offset, { s with
      cache := Function.update s.cache key
        (some (.write, { e with mask := e.mask ||| blockMask offset size })) })
  | none =>
    match s.standby, s.freeList with
    | true, block :: rest =>
      if memory then some (.flash, block + offset, { s with
        freeList := rest
        cache := Function.update s.cache key
          (some (.write, ⟨key, block, blockMask offset size⟩)) })
      else none
    | true, [] => s.diskActivity.map fun s => (.disk, sector, s)
    | false, _ => some (.disk, sector, s)

end Ebc

inductive Op (δ : Type)
  | read (sector size : ℕ)
  | write (sector : ℕ) (data : List δ) (memory : Bool)
  | fetch (key : ℕ) (entry node : Bool)
  | flushRead (key : ℕ)
  | flushWrite (key : ℕ)
  | removeLastRead (key : ℕ)
  | standby (on : Bool)

open Ebc

/-- What the operation returns and the state after it, if the kernel is still running. -/
def exec : Op δ → Option (List δ × Ebc δ)
  | .read sector size => (s.readTranslation sector size).map fun
    | (.disk, a, s) => ((range size).map fun i => s.disk (a + i), s)
    | (.flash, a, s) => ((range size).map fun i => s.flash (a + i), s)
  | .write sector data memory => (s.writeTranslation sector data.length memory).map fun
    | (.disk, a, s) => ([], { s with disk := put s.disk a data })
    | (.flash, a, s) => ([], { s with flash := s.putFlash a data })
  | .fetch key entry node => (s.cfetchRead (keyOf key) entry node).map fun s => ([], s)
  | .flushRead key => some ([], s.cflushRead key)
  | .flushWrite key => some ([], s.cflushWrite key)
  | .removeLastRead key => some ([], s.cremoveLastRead key)
  | .standby on => some ([], { s with standby := on })

def step (op : Op δ) : Option (Ebc δ) := (exec s op).map Prod.snd

/-- What a run returns, if it comes to its end. -/
def answers : Ebc δ → List (Op δ) → Option (List (List δ))
  | _, [] => some []
  | s, op :: ops => (exec s op).bind fun r => (answers r.2 ops).map (r.1 :: ·)

/-- The store without a cache. -/
def specExec (store : ℕ → δ) : Op δ → List δ × (ℕ → δ)
  | .read sector size => ((range size).map fun i => store (sector + i), store)
  | .write sector data _ => ([], put store sector data)
  | _ => ([], store)

def Op.InBlock : Op δ → Prop
  | .read sector size => sector % objectSize + size ≤ objectSize
  | .write sector data _ => sector % objectSize + data.length ≤ objectSize
  | _ => True

/-- The next free block is one of the flash that no entry uses. -/
def Fresh : Prop := ∀ block ∈ s.freeList.head?, block + objectSize ≤ s.fsect ∧
  ∀ key c, s.cache key = some c →
    c.2.fdSector + objectSize ≤ block ∨ block + objectSize ≤ c.2.fdSector

/-- A read finds all its sectors in the cache, a new log entry its block and memory. -/
def Allowed : Op δ → Prop
  | .read sector size => ∃ m e, s.cache (keyOf sector) = some (m, e) ∧
    (m = .write → blockMask (sector % objectSize) size ≠ 0#32 ∧
      blockMask (sector % objectSize) size &&& e.mask = blockMask (sector % objectSize) size)
  | .write sector _ memory => memory = true ∧
    (s.cache (keyOf sector) = none → s.standby = true → s.freeList ≠ [] ∧ Fresh s)
  | .fetch _ entry node => (entry = true → node = true) ∧ Fresh s
  | _ => True

/-- The cases of an operation. -/
inductive Does (s : Ebc δ) : Op δ → List δ → Ebc δ → Prop
  | hit {sector e} (size : ℕ) (h : s.cache (keyOf sector) = some (.read, e)) :
    Does s (.read sector size)
      ((range size).map fun i => s.flash (e.fdSector + sector % objectSize + i)) s
  | logged {sector e} (size : ℕ) (h : s.cache (keyOf sector) = some (.write, e)) :
    Does s (.read sector size)
      ((range size).map fun i => s.flash (e.fdSector + sector % objectSize + i)) s
  | moved {sector e} (data : List δ) (h : s.cache (keyOf sector) = some (.read, e)) :
    Does s (.write sector data true) [] { s with
      cache := Function.update s.cache (keyOf sector) (some (.write, e))
      flash := s.putFlash (e.fdSector + sector % objectSize) data }
  | updated {sector e} (data : List δ) (memory : Bool)
    (h : s.cache (keyOf sector) = some (.write, e)) :
    Does s (.write sector data memory) [] { s with
      cache := Function.update s.cache (keyOf sector) (some (.write,
        { e with mask := e.mask ||| blockMask (sector % objectSize) data.length }))
      flash := s.putFlash (e.fdSector + sector % objectSize) data }
  | new {sector block rest} (data : List δ) (h : s.cache (keyOf sector) = none)
    (hst : s.standby = true) (hfree : s.freeList = block :: rest) :
    Does s (.write sector data true) [] { s with
      freeList := rest
      cache := Function.update s.cache (keyOf sector) (some (.write,
        ⟨keyOf sector, block, blockMask (sector % objectSize) data.length⟩))
      flash := s.putFlash (block + sector % objectSize) data }
  | through {sector} (data : List δ) (memory : Bool) (h : s.cache (keyOf sector) = none) :
    Does s (.write sector data memory) [] { s with disk := put s.disk sector data }
  | fetched {key block rest} (h : s.cache (keyOf key) = none) (hfree : s.freeList = block :: rest) :
    Does s (.fetch key true true) [] { s with
      freeList := rest
      flash := s.putFlash block ((range objectSize).map fun i => s.disk (keyOf key + i))
      cache := Function.update s.cache (keyOf key)
        (some (.read, ⟨keyOf key, block, blockMask 0 objectSize⟩)) }
  | lost {key block rest} (node : Bool) (h : s.cache (keyOf key) = none)
    (hfree : s.freeList = block :: rest) :
    Does s (.fetch key false node) [] { s with freeList := rest }
  | notFetched {key} (entry node : Bool) (h : s.cache (keyOf key) = none → s.freeList = []) :
    Does s (.fetch key entry node) [] s
  | flushRead (key : ℕ) : Does s (.flushRead key) [] (s.cflushRead key)
  | flushWrite (key : ℕ) : Does s (.flushWrite key) [] (s.cflushWrite key)
  | removeLastRead (key : ℕ) : Does s (.removeLastRead key) [] (s.cremoveLastRead key)
  | standby (on : Bool) : Does s (.standby on) [] { s with standby := on }

theorem does_of_exec {s t : Ebc δ} {op : Op δ} {out : List δ} (h : exec s op = some (out, t)) :
    Does s op out t := by
  cases op with
  | read sector size =>
    simp only [exec, readTranslation, diskActivity] at h
    rcases hc : s.cache (keyOf sector) with _ | ⟨_ | _, e⟩
    · simp [hc] at h
    · simp only [hc, map_some, some.injEq, Prod.mk.injEq] at h
      obtain ⟨rfl, rfl⟩ := h
      exact .hit size hc
    · simp only [hc] at h
      split_ifs at h
      · simp only [map_some, some.injEq, Prod.mk.injEq] at h
        obtain ⟨rfl, rfl⟩ := h
        exact .logged size hc
      · cases h
      · cases h
  | write sector data memory =>
    simp only [exec, writeTranslation, diskActivity] at h
    rcases hc : s.cache (keyOf sector) with _ | ⟨_ | _, e⟩
    · simp only [hc] at h
      split at h
      · next block rest hst hfree =>
        cases memory <;> simp at h
        obtain ⟨rfl, rfl⟩ := h
        exact .new data hc hst hfree
      · cases h
      · simp only [map_some, some.injEq, Prod.mk.injEq] at h
        obtain ⟨rfl, rfl⟩ := h
        exact .through data memory hc
    · cases memory <;> simp [hc] at h
      obtain ⟨rfl, rfl⟩ := h
      exact .moved data hc
    · simp [hc] at h
      obtain ⟨rfl, rfl⟩ := h
      exact .updated data memory hc
  | fetch key entry node =>
    simp only [exec, cfetchRead] at h
    rcases hc : s.cache (keyOf key) with _ | c <;> rcases hfree : s.freeList with _ | ⟨block, rest⟩
    on_goal 2 =>
      cases entry <;> cases node <;> simp [hc, hfree] at h <;> obtain ⟨rfl, rfl⟩ := h
      · exact .lost false hc hfree
      · exact .lost true hc hfree
      · exact .fetched hc hfree
    all_goals
      simp [hc, hfree] at h
      obtain ⟨rfl, rfl⟩ := h
      exact .notFetched entry node (by simp [hc, hfree])
  | flushRead key => cases h; exact .flushRead key
  | flushWrite key => cases h; exact .flushWrite key
  | removeLastRead key => cases h; exact .removeLastRead key
  | standby on => cases h; exact .standby on

/-- An allowed operation does not stop the kernel. -/
theorem exec_ne_none {s : Ebc δ} {op : Op δ} (hin : op.InBlock) (h : Allowed s op) :
    exec s op ≠ none := by
  cases op with
  | read sector size =>
    obtain ⟨m, e, hc, hmask⟩ := h
    cases m with
    | read => simp [exec, readTranslation, hc]
    | write =>
      obtain ⟨hne, heq⟩ := hmask rfl
      have hin : sector % objectSize + size ≤ objectSize := hin
      simp [exec, readTranslation, hc, heq, hne, hin]
  | write sector data memory =>
    obtain ⟨rfl, hfree⟩ := h
    rcases hc : s.cache (keyOf sector) with _ | ⟨_ | _, e⟩
    · rcases hst : s.standby with _ | _
      · simp [exec, writeTranslation, hc, hst]
      · obtain ⟨block, rest, hlist⟩ := exists_cons_of_ne_nil (hfree hc hst).1
        simp [exec, writeTranslation, hc, hst, hlist]
    · simp [exec, writeTranslation, hc]
    · simp [exec, writeTranslation, hc]
  | fetch key entry node =>
    simp only [exec, cfetchRead]
    rcases hc : s.cache (keyOf key) with _ | c <;> rcases hfree : s.freeList with _ | ⟨block, rest⟩
    on_goal 2 => cases entry <;> simp [h.1]
    all_goals simp
  | _ => simp [exec]

def assigned (cache : ℕ → Option (Map × CacheEntry)) (key : ℕ) : Option ℕ :=
  (cache key).map (·.2.fdSector)

/-- The blocks are free or assigned to one key each. -/
structure Partition {κ : Type} (blocks : ℕ → Prop) (assigned : κ → Option ℕ) (free : List ℕ) :
    Prop where
  all : ∀ v, blocks v ↔ v ∈ free ∨ ∃ c, assigned c = some v
  nodup : free.Nodup
  apart : ∀ v ∈ free, ∀ c, assigned c ≠ some v
  once : ∀ c c' v, assigned c = some v → assigned c' = some v → c = c'

section Partition

variable {κ : Type} [DecidableEq κ] {blocks : ℕ → Prop} {f : κ → Option ℕ} {free rest : List ℕ}
  {c : κ} {v w : ℕ}

theorem Partition.alloc (h : Partition blocks f (v :: rest)) (hc : f c = none) :
    Partition blocks (Function.update f c (some v)) rest := by
  obtain ⟨hall, hnodup, hapart, honce⟩ := h
  have hg (d : κ) : Function.update f c (some v) d = if d = c then some v else f d :=
    Function.update_apply ..
  constructor <;> grind

theorem Partition.release_iff (h : Partition blocks f free) (hc : f c = some v) :
    Partition blocks (Function.update f c none) (free ++ [w]) ↔ v = w := by
  obtain ⟨hall, hnodup, hapart, honce⟩ := h
  have hg (d : κ) : Function.update f c none d = if d = c then none else f d :=
    Function.update_apply ..
  constructor
  · rintro ⟨hall', -, -, -⟩
    grind
  · rintro rfl
    constructor <;> grind

omit [DecidableEq κ] in
theorem Partition.not_tail (h : Partition blocks f (v :: rest)) : ¬ Partition blocks f rest := by
  rintro ⟨hall', -, -, -⟩
  have hv := (hall' v).1 ((h.all v).2 (.inl mem_cons_self))
  have hnodup := nodup_cons.1 h.nodup
  have hapart := h.apart v mem_cons_self
  grind

theorem Partition.not_drop (h : Partition blocks f free) (hc : f c = some v) :
    ¬ Partition blocks (Function.update f c none) free := by
  rintro ⟨hall', -, -, -⟩
  have hv := (hall' v).1 ((h.all v).2 (.inr ⟨c, hc⟩))
  have honce := h.once c
  have hapart := h.apart v
  grind [Function.update_apply]

end Partition

variable {s} {t : Ebc δ} {cache : ℕ → Option (Map × CacheEntry)} {free rest : List ℕ}
  {freeEntries key block v : ℕ} {c c' : Map × CacheEntry} {e : CacheEntry} {op : Op δ}
  {out : List δ}

def Accounted (freeEntries : ℕ) (cache : ℕ → Option (Map × CacheEntry)) (free : List ℕ) : Prop :=
  Partition (fun v => ∃ i < freeEntries, v = i * objectSize) (assigned cache) free

/-- A flushed entry has the flash block with the number of its disk sector, and no block is lost. -/
def Kept (s : Ebc δ) : Op δ → Prop
  | .fetch key entry _ => entry = false → s.cache (keyOf key) = none → s.freeList = []
  | .flushRead key => ∀ e, s.cache key = some (.read, e) → e.fdSector = key
  | .flushWrite key => ∀ e, s.cache key = some (.write, e) → e.fdSector = key
  | .removeLastRead key => ∀ e, s.cache key ≠ some (.read, e)
  | _ => True

theorem assigned_update (c : Option (Map × CacheEntry)) :
    assigned (Function.update cache key c) =
      Function.update (assigned cache) key (c.map (·.2.fdSector)) := by
  funext d
  rcases eq_or_ne d key with rfl | hne <;> simp [assigned, *]

namespace Accounted

theorem release_iff (h : Accounted freeEntries cache free) (hc : cache key = some c) :
    Accounted freeEntries (Function.update cache key none) (free ++ [v]) ↔ c.2.fdSector = v := by
  rw [Accounted, assigned_update]
  exact Partition.release_iff h (by rw [assigned, hc]; rfl)

section
variable (h : Accounted freeEntries s.cache s.freeList) (key : ℕ)
include h

theorem cflushWrite_iff :
    Accounted freeEntries (s.cflushWrite key).cache (s.cflushWrite key).freeList ↔
      Kept s (.flushWrite key) := by
  rw [cflushWrite, Kept]
  rcases hc : s.cache key with _ | ⟨_ | _, e⟩
  · exact iff_of_true h (by simp)
  · exact iff_of_true h (by simp)
  · simpa using h.release_iff hc

theorem cflushRead_iff :
    Accounted freeEntries (s.cflushRead key).cache (s.cflushRead key).freeList ↔
      Kept s (.flushRead key) := by
  rw [cflushRead, Kept]
  rcases hc : s.cache key with _ | ⟨_ | _, e⟩
  · exact iff_of_true h (by simp)
  · simpa using h.release_iff hc
  · exact iff_of_true h (by simp)

theorem cremoveLastRead_iff :
    Accounted freeEntries (s.cremoveLastRead key).cache (s.cremoveLastRead key).freeList ↔
      Kept s (.removeLastRead key) := by
  rw [cremoveLastRead, Kept]
  rcases hc : s.cache key with _ | ⟨_ | _, e⟩
  · exact iff_of_true h (by simp)
  · refine iff_of_false (fun ht => ?_) fun hnone => hnone e rfl
    rw [Accounted, assigned_update] at ht
    exact Partition.not_drop h (by rw [assigned, hc]; rfl) ht
  · exact iff_of_true h (by simp)

end

theorem alloc (h : Accounted freeEntries cache (block :: rest)) (hc : cache key = none)
    (hblock : c.2.fdSector = block) :
    Accounted freeEntries (Function.update cache key (some c)) rest := by
  rw [Accounted, assigned_update, map_some, hblock]
  exact Partition.alloc h (by rw [assigned, hc]; rfl)

theorem relabel (h : Accounted freeEntries cache free) (hc : cache key = some c)
    (hblock : c'.2.fdSector = c.2.fdSector) :
    Accounted freeEntries (Function.update cache key (some c')) free := by
  have hsame : assigned cache key = some c'.2.fdSector := by rw [assigned, hc, hblock]; rfl
  rwa [Accounted, assigned_update, map_some, ← hsame, Function.update_eq_self]

theorem does_iff (h : Accounted freeEntries s.cache s.freeList) (hd : Does s op out t) :
    Accounted freeEntries t.cache t.freeList ↔ Kept s op := by
  cases hd with
  | hit | logged | through | standby => exact iff_of_true h trivial
  | moved data hc => exact iff_of_true (h.relabel hc rfl) trivial
  | updated data memory hc => exact iff_of_true (h.relabel hc rfl) trivial
  | new data hc hst hfree => exact iff_of_true (alloc (hfree ▸ h) hc rfl) trivial
  | fetched hc hfree =>
    exact iff_of_true (alloc (hfree ▸ h) hc rfl) fun hentry => by cases hentry
  | lost node hc hfree =>
    refine iff_of_false (Partition.not_tail (hfree ▸ h)) fun hkept => ?_
    rw [hkept rfl hc] at hfree
    cases hfree
  | notFetched entry node hfree => exact iff_of_true h fun _ => hfree
  | flushRead key => exact h.cflushRead_iff key
  | flushWrite key => exact h.cflushWrite_iff key
  | removeLastRead key => exact h.cremoveLastRead_iff key

end Accounted

theorem accounted_cinitCaches (freeEntries fsect : ℕ) (disk flash : ℕ → δ) :
    Accounted freeEntries (cinitCaches freeEntries fsect disk flash).cache
      (cinitCaches freeEntries fsect disk flash).freeList where
  all v := by simp [cinitCaches, assigned, eq_comm]
  nodup := nodup_range.map fun i j hij => Nat.mul_right_cancel (by decide) hij
  apart v _ c := by simp [cinitCaches, assigned]
  once c c' v hc := by simp [cinitCaches, assigned] at hc

section Blocks
variable {a i offset size : ℕ} {m m' : ℕ → δ} {xs : List δ} {b b' : ℕ}

theorem keyOf_add_mod (a : ℕ) : keyOf a + a % objectSize = a := by
  unfold keyOf objectSize
  omega

theorem keyOf_add (hkey : keyOf key = key) (hi : i < objectSize) : keyOf (key + i) = key := by
  unfold keyOf objectSize at *
  omega

theorem add_mod (hkey : keyOf key = key) (hi : i < objectSize) : (key + i) % objectSize = i := by
  unfold keyOf objectSize at *
  omega

theorem keyOf_keyOf (a : ℕ) : keyOf (keyOf a) = keyOf a := by
  unfold keyOf objectSize
  omega

theorem mod_lt (a : ℕ) : a % objectSize < objectSize := Nat.mod_lt a (by decide)

theorem getLsbD_blockMask (h : offset + size ≤ objectSize) (hi : i < objectSize) :
    (blockMask offset size).getLsbD i = decide (offset ≤ i ∧ i < offset + size) := by
  unfold objectSize at *
  unfold blockMask
  rw [BitVec.getLsbD_setWidth, BitVec.getLsbD_shiftLeft,
    Bits.getLsbD_one_shiftLeft_sub_one (by omega)]
  rw [Bool.eq_iff_iff]
  simp
  omega

theorem put_add_eq (h : offset ≤ i ∧ i < offset + xs.length ∨ m (b + i) = m' (b' + i)) :
    put m (b + offset) xs (b + i) = put m' (b' + offset) xs (b' + i) := by
  unfold put
  rw [Nat.add_sub_add_left, Nat.add_sub_add_left]
  by_cases hle : offset ≤ i
  · rw [if_pos (by omega), if_pos (by omega)]
    rcases h with ⟨-, hlt⟩ | heq
    · rw [getElem?_eq_getElem (by omega), getD_some, getD_some]
    · rw [heq]
  · rw [if_neg (by omega), if_neg (by omega)]
    exact h.resolve_left (by omega)

theorem put_of_keyOf_ne (hlen : a % objectSize + xs.length ≤ objectSize) (hne : keyOf i ≠ keyOf a) :
    put m a xs i = m i := by
  rcases lt_or_ge i a with hlt | hge
  · exact put_of_lt m xs hlt
  · refine put_of_le m ?_
    unfold keyOf objectSize at *
    omega

end Blocks

/-- What the caches and the devices hold is what the store has. -/
structure Coherent (s : Ebc δ) (store : ℕ → δ) : Prop where
  key : ∀ k c, s.cache k = some c → c.2.hdSector = k ∧ keyOf k = k
  full : ∀ k e, s.cache k = some (.read, e) → e.mask = blockMask 0 objectSize
  flash : ∀ k c, s.cache k = some c → ∀ i < objectSize, c.2.mask.getLsbD i = true →
    s.flash (c.2.fdSector + i) = store (k + i)
  disk : ∀ a, (∀ e, s.cache (keyOf a) = some (.write, e) →
    e.mask.getLsbD (a % objectSize) = false) → s.disk a = store a
  apart : ∀ k k' c c', k ≠ k' → s.cache k = some c → s.cache k' = some c' →
    c.2.fdSector + objectSize ≤ c'.2.fdSector ∨ c'.2.fdSector + objectSize ≤ c.2.fdSector
  inside : ∀ k c, s.cache k = some c → c.2.fdSector + objectSize ≤ s.fsect

theorem putFlash_eq {a : ℕ} {xs : List δ} (h : a + xs.length ≤ s.fsect) :
    s.putFlash a xs = put s.flash a xs := by
  funext i
  unfold putFlash
  split_ifs with hi
  · rfl
  · exact (put_of_le _ (by omega)).symm

namespace Coherent
variable {store store' : ℕ → δ}

theorem set (h : Coherent s store) (hcache : t.cache = Function.update s.cache key (some c))
    (hkey : c.2.hdSector = key ∧ keyOf key = key)
    (hfull : c.1 = .read → c.2.mask = blockMask 0 objectSize) (hdisk : t.disk = s.disk)
    (hfsect : t.fsect = s.fsect) (hinside : c.2.fdSector + objectSize ≤ s.fsect)
    (hflash : ∀ a, a < c.2.fdSector ∨ c.2.fdSector + objectSize ≤ a → t.flash a = s.flash a)
    (hstore : ∀ a, keyOf a ≠ key → store' a = store a)
    (hin : ∀ i < objectSize, c.2.mask.getLsbD i = true →
      t.flash (c.2.fdSector + i) = store' (key + i))
    (hout : ∀ i < objectSize, (c.1 = .write → c.2.mask.getLsbD i = false) →
      s.disk (key + i) = store' (key + i))
    (hapart : ∀ k c', k ≠ key → s.cache k = some c' →
      c.2.fdSector + objectSize ≤ c'.2.fdSector ∨ c'.2.fdSector + objectSize ≤ c.2.fdSector) :
    Coherent t store' := by
  -- an entry of `t` is the new one, or an entry of `s` with another key
  have hcase (k c') (hc' : t.cache k = some c') :
      k = key ∧ c' = c ∨ k ≠ key ∧ s.cache k = some c' := by
    rw [hcache, Function.update_apply] at hc'
    split_ifs at hc' with hk
    · exact .inl ⟨hk, (some.inj hc').symm⟩
    · exact .inr ⟨hk, hc'⟩
  constructor
  case key =>
    intro k c' hc'
    obtain ⟨rfl, rfl⟩ | ⟨-, hold⟩ := hcase k c' hc'
    · exact hkey
    · exact h.key k c' hold
  case full =>
    intro k e hc'
    obtain ⟨rfl, rfl⟩ | ⟨-, hold⟩ := hcase k _ hc'
    · exact hfull rfl
    · exact h.full k e hold
  case flash =>
    intro k c' hc' i hi hbit
    obtain ⟨rfl, rfl⟩ | ⟨hne, hold⟩ := hcase k c' hc'
    · exact hin i hi hbit
    · rw [hflash _ (by have := hapart k c' hne hold; omega),
        hstore _ (by rwa [keyOf_add (h.key k c' hold).2 hi]), h.flash k c' hold i hi hbit]
  case disk =>
    intro a ha
    rw [hdisk]
    by_cases hk : keyOf a = key
    · have hat := hout (a % objectSize) (mod_lt a) fun hwrite =>
        ha c.2 (by rw [hcache, hk, Function.update_self, ← hwrite])
      rwa [← hk, keyOf_add_mod] at hat
    · rw [hstore a hk]
      rw [hcache, Function.update_of_ne hk] at ha
      exact h.disk a ha
  case apart =>
    intro k k' c' c'' hne hc' hc''
    obtain ⟨rfl, rfl⟩ | ⟨hk, hold⟩ := hcase k c' hc'
    · obtain ⟨rfl, -⟩ | ⟨hk', hold'⟩ := hcase k' c'' hc''
      · exact absurd rfl hne
      · exact hapart k' c'' hk' hold'
    · obtain ⟨rfl, rfl⟩ | ⟨-, hold'⟩ := hcase k' c'' hc''
      · exact (hapart k c' hk hold).symm
      · exact h.apart k k' c' c'' hne hold hold'
  case inside =>
    intro k c' hc'
    rw [hfsect]
    obtain ⟨rfl, rfl⟩ | ⟨-, hold⟩ := hcase k c' hc'
    · exact hinside
    · exact h.inside k c' hold

theorem drop (h : Coherent s store) (hcache : t.cache = Function.update s.cache key none)
    (hflash : t.flash = s.flash) (hfsect : t.fsect = s.fsect)
    (hdisk : ∀ a, keyOf a ≠ key → t.disk a = s.disk a)
    (hback : ∀ a, keyOf a = key → t.disk a = store a) : Coherent t store := by
  have hold (k c) (hc : t.cache k = some c) : s.cache k = some c := by
    rw [hcache, Function.update_apply] at hc
    split_ifs at hc
    exact hc
  refine ⟨fun k c hc => h.key k c (hold k c hc), fun k e hc => h.full k e (hold k _ hc), ?_,
    fun a ha => ?_,
    fun k k' c c' hne hc hc' => h.apart k k' c c' hne (hold k c hc) (hold k' c' hc'),
    fun k c hc => hfsect ▸ h.inside k c (hold k c hc)⟩
  · rw [hflash]
    exact fun k c hc => h.flash k c (hold k c hc)
  · by_cases hk : keyOf a = key
    · exact hback a hk
    · rw [hcache, Function.update_of_ne hk] at ha
      rw [hdisk a hk, h.disk a ha]

theorem disk_of_read (h : Coherent s store) (hc : s.cache key = some (.read, e)) (a : ℕ)
    (ha : keyOf a = key) : s.disk a = store a :=
  h.disk a fun e' he' => by simp [ha, hc] at he'

theorem copyBack_apply (s : Ebc δ) (e : CacheEntry) (i n : ℕ) (disk : ℕ → δ) (a : ℕ) :
    s.copyBack e i n disk a =
      if e.hdSector + i ≤ a ∧ a < e.hdSector + i + n then s.flash (e.fdSector + (a - e.hdSector))
      else disk a := by
  unfold copyBack put
  by_cases hle : e.hdSector + i ≤ a
  · by_cases hlt : a < e.hdSector + i + n
    · rw [if_pos hle, if_pos ⟨hle, hlt⟩, getElem?_map, getElem?_range (by omega)]
      exact congrArg s.flash (by omega)
    · rw [if_pos hle, if_neg (by omega), getElem?_eq_none (by simp; omega)]
      rfl
  · rw [if_neg hle, if_neg (by omega)]

theorem writtenBack_apply (s : Ebc δ) (hkey : keyOf e.hdSector = e.hdSector) (a : ℕ) :
    s.writtenBack e a =
      if keyOf a = e.hdSector ∧ e.mask.getLsbD (a % objectSize) = true then
        s.flash (e.fdSector + a % objectSize)
      else s.disk a := by
  have hblock : keyOf a = e.hdSector → a - e.hdSector = a % objectSize := by
    have hsum := keyOf_add_mod a
    omega
  have hiff : keyOf a = e.hdSector ↔ e.hdSector ≤ a ∧ a < e.hdSector + objectSize := by
    unfold keyOf objectSize at *
    omega
  unfold writtenBack
  split
  case isTrue hfull =>
    have hbit : e.mask.getLsbD (a % objectSize) = true := by
      rw [hfull, getLsbD_blockMask le_rfl (mod_lt a)]
      simpa using mod_lt a
    rw [copyBack_apply]
    simp only [Nat.add_zero, ← hiff, hbit, and_true]
    split
    case isTrue hin => rw [hblock hin]
    case isFalse => rfl
  case isFalse =>
    -- the first `n` sectors are written back
    have hloop : ∀ n ≤ objectSize, (range n).foldl
        (fun disk i => if e.mask.getLsbD i then s.copyBack e i 1 disk else disk) s.disk a =
        if keyOf a = e.hdSector ∧ a % objectSize < n ∧ e.mask.getLsbD (a % objectSize) = true then
          s.flash (e.fdSector + a % objectSize)
        else s.disk a := by
      intro n hn
      induction n with
      | zero => simp
      | succ n ih =>
        rw [range_succ, foldl_append, foldl_cons, foldl_nil]
        by_cases hbit : e.mask.getLsbD n = true
        · rw [if_pos hbit, copyBack_apply, ih (by omega)]
          grind
        · grind
    rw [hloop objectSize le_rfl]
    simp [mod_lt a]

theorem cflushWrite (h : Coherent s store) (key : ℕ) : Coherent (s.cflushWrite key) store := by
  rw [Ebc.cflushWrite]
  rcases hc : s.cache key with _ | ⟨_ | _, e⟩
  · exact h
  · exact h
  obtain ⟨hhd, hkey⟩ : e.hdSector = key ∧ _ := h.key key _ hc
  have hback := writtenBack_apply s (e := e) (by rwa [hhd])
  refine h.drop rfl rfl rfl (fun a ha => (hback a).trans (if_neg fun hin => ha (hin.1.trans hhd)))
    fun a ha => (hback a).trans ?_
  split
  case isTrue hin =>
    have hflash := h.flash key _ hc _ (mod_lt a) hin.2
    rwa [← ha, keyOf_add_mod] at hflash
  case isFalse hout =>
    refine h.disk a fun e' he' => ?_
    rw [ha, hc] at he'
    cases he'
    simpa [ha, hhd] using hout

theorem disk_at (h : Coherent s store) {sector i : ℕ} (hi : i < objectSize)
    (hbit : ∀ e, s.cache (keyOf sector) = some (.write, e) → e.mask.getLsbD i = false) :
    s.disk (keyOf sector + i) = store (keyOf sector + i) := by
  refine h.disk _ fun e he => ?_
  rw [keyOf_add (keyOf_keyOf sector) hi] at he
  rw [add_mod (keyOf_keyOf sector) hi]
  exact hbit e he

theorem flash_of_mask (h : Coherent s store) {sector i : ℕ}
    (hc : s.cache (keyOf sector) = some c) (hi : sector % objectSize + i < objectSize)
    (hbit : c.2.mask.getLsbD (sector % objectSize + i) = true) :
    s.flash (c.2.fdSector + sector % objectSize + i) = store (sector + i) := by
  have hat := h.flash _ c hc _ hi hbit
  rwa [← Nat.add_assoc, ← Nat.add_assoc, keyOf_add_mod] at hat

theorem getLsbD_full {i : ℕ} (hi : i < objectSize) :
    (blockMask 0 objectSize).getLsbD i = true := by
  rw [getLsbD_blockMask le_rfl hi]
  simpa using hi

theorem write (h : Coherent s store) {sector : ℕ} {data : List δ}
    (hin : sector % objectSize + data.length ≤ objectSize)
    (hcache : t.cache = Function.update s.cache (keyOf sector) (some (.write, e)))
    (hhd : e.hdSector = keyOf sector) (hdisk : t.disk = s.disk) (hfsect : t.fsect = s.fsect)
    (hinside : e.fdSector + objectSize ≤ s.fsect)
    (hflash : t.flash = s.putFlash (e.fdSector + sector % objectSize) data)
    (hmask : ∀ i < objectSize, e.mask.getLsbD i = true →
      sector % objectSize ≤ i ∧ i < sector % objectSize + data.length ∨
        s.flash (e.fdSector + i) = store (keyOf sector + i))
    (hrest : ∀ i < objectSize, e.mask.getLsbD i = false →
      ¬ (sector % objectSize ≤ i ∧ i < sector % objectSize + data.length) ∧
        s.disk (keyOf sector + i) = store (keyOf sector + i))
    (hapart : ∀ k c', k ≠ keyOf sector → s.cache k = some c' →
      e.fdSector + objectSize ≤ c'.2.fdSector ∨ c'.2.fdSector + objectSize ≤ e.fdSector) :
    Coherent t (put store sector data) := by
  have hsum := keyOf_add_mod sector
  rw [putFlash_eq (by omega)] at hflash
  refine h.set hcache ⟨hhd, keyOf_keyOf sector⟩ (fun hread => by cases hread) hdisk hfsect hinside
    (fun a ha => ?_) (fun a ha => put_of_keyOf_ne hin ha) (fun i hi hbit => ?_)
    (fun i hi hbit => ?_) hapart
  · rw [hflash]
    dsimp only at ha
    rcases ha with hlt | hge
    · exact put_of_lt _ _ (by omega)
    · exact put_of_le _ (by omega)
  · rw [hflash]
    nth_rewrite 2 [← hsum]
    exact put_add_eq (hmask i hi hbit)
  · obtain ⟨hnot, hdisk'⟩ := hrest i hi (hbit rfl)
    rw [hdisk']
    rcases Nat.lt_or_ge i (sector % objectSize) with hlt | hge
    · exact (put_of_lt _ _ (by omega)).symm
    · exact (put_of_le _ (by omega)).symm

end Coherent

theorem Does.coherent (hd : Does s op out t) {store : ℕ → δ} (h : Coherent s store)
    (hin : op.InBlock) (hok : Allowed s op) :
    out = (specExec store op).1 ∧ Coherent t (specExec store op).2 := by
  cases hd with
  | @hit sector e size hc =>
    refine ⟨map_congr_left fun i hi => ?_, h⟩
    have hi' : sector % objectSize + i < objectSize :=
      (Nat.add_lt_add_left (mem_range.1 hi) _).trans_le hin
    refine h.flash_of_mask hc hi' ?_
    rw [h.full _ e hc]
    exact Coherent.getLsbD_full hi'
  | @logged sector e size hc =>
    refine ⟨map_congr_left fun i hi => ?_, h⟩
    have hi' := mem_range.1 hi
    have hlt : sector % objectSize + i < objectSize := (Nat.add_lt_add_left hi' _).trans_le hin
    obtain ⟨m, e', hc', hmask⟩ := hok
    obtain ⟨rfl, rfl⟩ := Prod.mk.inj (some.inj (hc.symm.trans hc'))
    refine h.flash_of_mask hc hlt ?_
    have hsub := congrArg (fun x : BitVec 32 => x.getLsbD (sector % objectSize + i)) (hmask rfl).2
    simp only [BitVec.getLsbD_and, getLsbD_blockMask hin hlt] at hsub
    simpa [hi'] using hsub
  | @moved sector e data hc =>
    refine ⟨rfl, h.write hin rfl (h.key _ _ hc).1 rfl rfl (h.inside _ _ hc) rfl
      (fun i hi hbit => .inr (h.flash _ _ hc i hi hbit)) (fun i hi hbit => ?_)
      fun k c' hne hc' => h.apart _ k _ c' hne.symm hc hc'⟩
    rw [h.full _ e hc, Coherent.getLsbD_full hi] at hbit
    cases hbit
  | @updated sector e data memory hc =>
    refine ⟨rfl, h.write hin rfl (h.key _ _ hc).1 rfl rfl
      (h.inside (keyOf sector) (.write, e) hc) rfl (fun i hi hbit => ?_)
      (fun i hi hbit => ?_) fun k c' hne hc' => h.apart _ k _ c' hne.symm hc hc'⟩
    · rw [BitVec.getLsbD_or, getLsbD_blockMask hin hi, Bool.or_eq_true, decide_eq_true_iff] at hbit
      exact hbit.symm.imp_right (h.flash _ _ hc i hi)
    · rw [BitVec.getLsbD_or, getLsbD_blockMask hin hi, Bool.or_eq_false_iff,
        decide_eq_false_iff_not] at hbit
      exact ⟨hbit.2, h.disk_at hi fun e' he' => by rw [hc] at he'; cases he'; exact hbit.1⟩
  | @new sector block rest data hc hst hfree =>
    obtain ⟨hinside, hfresh⟩ := (hok.2 hc hst).2 block (by simp [hfree])
    refine ⟨rfl, h.write hin rfl rfl rfl rfl hinside rfl (fun i hi hbit => ?_)
      (fun i hi hbit => ?_) fun k c' _ hc' => (hfresh k c' hc').symm⟩
    · rw [getLsbD_blockMask hin hi, decide_eq_true_iff] at hbit
      exact .inl hbit
    · rw [getLsbD_blockMask hin hi, decide_eq_false_iff_not] at hbit
      exact ⟨hbit, h.disk_at hi (by simp [hc])⟩
  | @through sector data memory hc =>
    refine ⟨rfl, h.key, h.full, fun k c hk i hi hbit => ?_, fun a ha => ?_, h.apart, h.inside⟩
    · have hne : k ≠ keyOf sector := by
        rintro rfl
        simp [hc] at hk
      have hstore : put store sector data (k + i) = store (k + i) :=
        put_of_keyOf_ne hin (by rwa [keyOf_add (h.key k c hk).2 hi])
      exact (h.flash k c hk i hi hbit).trans hstore.symm
    · simp only [specExec, put, h.disk a ha]
  | @fetched key block rest hc hfree =>
    obtain ⟨hinside, hfresh⟩ := hok.2 block (by simp [hfree])
    rw [putFlash_eq (by simpa using hinside)]
    refine ⟨rfl, h.set rfl ⟨rfl, keyOf_keyOf key⟩ (fun _ => rfl) rfl rfl hinside (fun a ha => ?_)
      (fun _ _ => rfl) (fun i hi _ => ?_) (fun i hi _ => h.disk_at hi (by simp [hc]))
      fun k c' _ hc' => (hfresh k c' hc').symm⟩
    · rcases ha with hlt | hge
      · exact put_of_lt _ _ hlt
      · exact put_of_le _ (by simpa using hge)
    · refine (holds_put _ _ _ i (s.disk (keyOf key + i)) ?_).trans (h.disk_at hi (by simp [hc]))
      rw [getElem?_map, getElem?_range hi]
      rfl
  | lost => exact ⟨rfl, h.1, h.2, h.3, h.4, h.5, h.6⟩
  | notFetched => exact ⟨rfl, h⟩
  | flushRead key =>
    refine ⟨rfl, ?_⟩
    rw [cflushRead]
    split
    case h_1 e hc => exact h.drop rfl rfl rfl (fun _ _ => rfl) (h.disk_of_read hc)
    case h_2 => exact h
  | flushWrite key => exact ⟨rfl, h.cflushWrite key⟩
  | removeLastRead key =>
    refine ⟨rfl, ?_⟩
    rw [cremoveLastRead]
    split
    case h_1 e hc => exact h.drop rfl rfl rfl (fun _ _ => rfl) (h.disk_of_read hc)
    case h_2 => exact h
  | standby on => exact ⟨rfl, h.1, h.2, h.3, h.4, h.5, h.6⟩

theorem coherent_cinitCaches (freeEntries fsect : ℕ) (disk flash : ℕ → δ) :
    Coherent (cinitCaches freeEntries fsect disk flash) disk := by
  constructor <;> simp [cinitCaches]

end DriverReuse.BlockCache
