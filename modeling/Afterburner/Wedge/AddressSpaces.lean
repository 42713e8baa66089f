import Afterburner.Wedge.UserTables

/-!
# The life of an address space

The threads of a process share a `task_info_t`, found by the page directory. The version of a thread
id is its UTCB index.
-/

namespace Wedge
open Function List Option Allocations TaskInfo MappedTables UserTables Runs

def l4Version (tid : Word) : Word := tid &&& 0x3fff
def l4GlobalId (threadNo version : Word) : Word := (threadNo <<< 14) ||| l4Version version

namespace TaskInfo

def encodeGtidVersion (value : Word) : Word := (value <<< 1) ||| 1
def decodeGtidVersion (gtid : Word) : Word := l4Version gtid >>> 1

variable (t : TaskInfo)

def hasOneThread (maxThreads : ℕ) : Bool :=
  t.utcbMask 0 = 1 ∧ ∀ i ∈ range' 1 (maxThreads / sizeofWord), t.utcbMask i = 0

def hasSpaceTid : Bool := t.spaceTid ≠ 0
def getSpaceTid : Word := l4GlobalId (l4ThreadNo t.spaceTid) (encodeGtidVersion 0)
def invalidateSpaceTid : TaskInfo := { t with spaceTid := l4GlobalId (l4ThreadNo t.spaceTid) 0 }
def isSpaceTidValid : Bool := l4Version t.spaceTid ≠ 0

end TaskInfo

structure UserThread where
  info : ℕ
  task : ℕ
  uidx : ℕ
  no : Word
  pageDir : Word
  deriving DecidableEq

structure SpaceTables where
  tables : UserTables
  ids : Allocations

namespace SpaceTables

def taskOf (t : UserTables) (pageDir : Word) : Option (ℕ × UserTables) :=
  match t.findByPageDir pageDir false with
  | some (some i, t) => some (i, t)
  | _ =>
    match t.allocateTask pageDir with
    | (some i, t) => some (i, t.setTask i (t.tasks i).init)
    | (none, _) => none

def withSpaceTid (t : TaskInfo) (tid : Word) : TaskInfo :=
  if t.hasSpaceTid = true then t else { t with spaceTid := tid }

def allocateThread (maxThreads : ℕ) (s : SpaceTables) (pageDir : Word) :
    Option (UserThread × SpaceTables) := do
  let no ← s.ids.mgr.threadIdAllocate.1
  let (i, t) ← taskOf s.tables pageDir
  let uidx ← ((t.tasks i).utcbAllocate maxThreads).1
  let task := ((t.tasks i).utcbAllocate maxThreads).2
  let tid := l4GlobalId no (encodeGtidVersion (BitVec.ofNat 32 uidx))
  if decodeGtidVersion tid ≠ BitVec.ofNat 32 uidx then none
  else if task.hasSpaceTid = false ∧ decodeGtidVersion tid ≠ 0 then none
  else
    let t := t.setTask i (withSpaceTid task tid)
    let info ← (t.allocateThread tid).1
    let t := (t.allocateThread tid).2.setThread info ⟨tid, some i⟩
    some (⟨info, i, uidx, no, pageDir⟩, ⟨t, s.ids.step .threadIdAllocate⟩)

def release (s : SpaceTables) (tid : Word) : SpaceTables :=
  { s with ids := s.ids.step (.threadIdRelease (l4ThreadNo tid)) }

def deleteOwn (maxThreads : ℕ) (s : SpaceTables) (tid : Word) (i : ℕ) :
    Option (List Word × SpaceTables) :=
  let task := s.tables.tasks i
  if l4Version tid = 1 then
    some ([], { s with tables := s.tables.setTask i task.invalidateSpaceTid })
  else
    let uidx := (decodeGtidVersion tid).toNat
    if uidx < maxThreads then
      some ([l4ThreadNo tid],
        { s with tables := s.tables.setTask i (task.utcbRelease uidx) }.release tid)
    else none

def retire (maxThreads : ℕ) (s : SpaceTables) (i : ℕ) : List Word × SpaceTables :=
  let task := s.tables.tasks i
  if task.hasOneThread maxThreads = true ∧ task.isSpaceTidValid = false then
    ([l4ThreadNo task.getSpaceTid],
      { s.release task.getSpaceTid with tables := s.tables.deallocateTask i })
  else ([], s)

def deleteThread (maxThreads : ℕ) (s : SpaceTables) (info : ℕ) :
    Option (List Word × SpaceTables) := do
  let thread := s.tables.threads info
  let i ← thread.ti
  let (own, s) ← s.deleteOwn maxThreads thread.tid i
  let (space, s) := s.retire maxThreads i
  some (own ++ space, { s with tables := s.tables.deallocateThread info })

end SpaceTables

structure Spaces where
  state : SpaceTables
  live : List UserThread
  space : ℕ → Word
  allocated : List Word
  released : List Word

inductive SpaceOp
  | allocateThread (pageDir : Word)
  | deleteThread (info : ℕ)

structure SpaceConfig where
  startup : Startup
  /-- `CONFIG_L4_MAX_THREADS_PER_TASK` -/
  maxThreads : ℕ
  maxThreads_lt : maxThreads < 2 ^ 32
  start_pos : 0 < startup.start.toNat
  numbers : startup.start.toNat + startup.len.toNat ≤ 2 ^ 18

namespace Spaces
variable (s : Spaces)

def start (ids : Allocations) : Spaces := ⟨⟨.empty, ids⟩, [], fun _ => 0, [], []⟩

def add (th : UserThread) (state : SpaceTables) : Spaces :=
  { state := state
    live := th :: s.live
    space := if ∃ th' ∈ s.live, th'.task = th.task then s.space
      else update s.space th.task th.no
    allocated := th.no :: s.allocated
    released := s.released }

def remove (info : ℕ) (nos : List Word) (state : SpaceTables) : Spaces :=
  { s with
    state := state
    live := s.live.filter (·.info ≠ info)
    released := nos ++ s.released }

def step (maxThreads : ℕ) (s : Spaces) : SpaceOp → Spaces
  | .allocateThread pageDir =>
    match s.state.allocateThread maxThreads pageDir with
    | some (th, state) => s.add th state
    | none => s
  | .deleteThread info =>
    match s.state.deleteThread maxThreads info with
    | some (nos, state) => s.remove info nos state
    | none => s

def Alive : SpaceOp → Prop
  | .allocateThread _ => True
  | .deleteThread info => ∃ th ∈ s.live, th.info = info

instance  : (op : SpaceOp) → Decidable (s.Alive op)
  | .allocateThread _ => .isTrue trivial
  | .deleteThread _ => inferInstanceAs (Decidable (∃ th ∈ s.live, _))

def InUse (no : Word) : Prop := ∃ th ∈ s.live, no = th.no ∨ no = s.space th.task

instance  (no : Word) : Decidable (s.InUse no) :=
  inferInstanceAs (Decidable (∃ th ∈ s.live, _))

structure LifeCycle : Prop where
  task_iff : ∀ i < maxTasks, s.state.tables.pageDirs i ≠ 0 ↔ ∃ th ∈ s.live, th.task = i
  pageDir : ∀ th ∈ s.live, s.state.tables.pageDirs th.task = th.pageDir
  once : ∀ no, s.allocated.count no = s.released.count no + if s.InUse no then 1 else 0

end Spaces

section ThreadIds
variable {no v : Word}

theorem toNat_l4Version (tid : Word) : (l4Version tid).toNat = tid.toNat % 2 ^ 14 := by
  rw [l4Version, BitVec.toNat_and, show (0x3fff : Word).toNat = 2 ^ 14 - 1 from rfl,
    Nat.and_two_pow_sub_one_eq_mod]

section
variable (hno : no.toNat < 2 ^ 18)
include hno

theorem toNat_l4GlobalId : (l4GlobalId no v).toNat = no.toNat * 2 ^ 14 + v.toNat % 2 ^ 14 := by
  have hlt : v.toNat % 2 ^ 14 < 2 ^ 14 := Nat.mod_lt _ (by decide)
  have hshift : (no <<< 14).toNat = no.toNat * 2 ^ 14 := by
    rw [BitVec.toNat_shiftLeft, Nat.shiftLeft_eq, Nat.mod_eq_of_lt (by omega)]
  rw [l4GlobalId, BitVec.toNat_or, hshift, toNat_l4Version, ← Nat.shiftLeft_eq,
    ← Nat.shiftLeft_add_eq_or_of_lt hlt]

theorem l4ThreadNo_l4GlobalId : l4ThreadNo (l4GlobalId no v) = no := by
  apply BitVec.eq_of_toNat_eq
  rw [l4ThreadNo, BitVec.toNat_ushiftRight, toNat_l4GlobalId hno]
  omega

theorem toNat_l4Version_l4GlobalId : (l4Version (l4GlobalId no v)).toNat = v.toNat % 2 ^ 14 := by
  rw [toNat_l4Version, toNat_l4GlobalId hno]
  omega

theorem l4GlobalId_ne_zero (hpos : 0 < no.toNat) :
    l4GlobalId no v ≠ 0 := by grind [toNat_l4GlobalId, BitVec]

end

def threadId (no : Word) (uidx : ℕ) : Word :=
  l4GlobalId no (encodeGtidVersion (BitVec.ofNat 32 uidx))

variable {uidx : ℕ}

theorem toNat_encodeGtidVersion (h : uidx < 2 ^ 13) :
    (encodeGtidVersion (BitVec.ofNat 32 uidx)).toNat = 2 * uidx + 1 := by
  have hshift : (BitVec.ofNat 32 uidx <<< 1).toNat = 2 * uidx := by
    rw [BitVec.toNat_shiftLeft, BitVec.toNat_ofNat]
    omega
  rw [encodeGtidVersion, BitVec.toNat_or, hshift, show (1 : Word).toNat = 1 from rfl,
    Nat.mul_comm, ← Nat.pow_one 2, ← Nat.shiftLeft_eq, ← Nat.shiftLeft_add_eq_or_of_lt (by decide)]

theorem decodeGtidVersion_threadId (hno : no.toNat < 2 ^ 18) (h32 : uidx < 2 ^ 32) :
    decodeGtidVersion (threadId no uidx) = BitVec.ofNat 32 uidx ↔ uidx < 2 ^ 13 := by
  have hdecode : (decodeGtidVersion (threadId no uidx)).toNat =
      (encodeGtidVersion (BitVec.ofNat 32 uidx)).toNat % 2 ^ 14 / 2 := by
    rw [decodeGtidVersion, BitVec.toNat_ushiftRight, threadId,
      toNat_l4Version_l4GlobalId hno, Nat.shiftRight_eq_div_pow]
  have huidx : (BitVec.ofNat 32 uidx).toNat = uidx := by
    rw [BitVec.toNat_ofNat, Nat.mod_eq_of_lt h32]
  constructor
  · intro h
    rw [h] at hdecode
    omega
  · intro h
    apply BitVec.eq_of_toNat_eq
    rw [hdecode, toNat_encodeGtidVersion h]
    omega

theorem l4Version_threadId (hno : no.toNat < 2 ^ 18) (h : uidx < 2 ^ 13) :
    l4Version (threadId no uidx) = 1 ↔ uidx = 0 := by
  have hversion : (l4Version (threadId no uidx)).toNat = 2 * uidx + 1 := by
    rw [threadId, toNat_l4Version_l4GlobalId hno, toNat_encodeGtidVersion h]
    omega
  rw [← BitVec.toNat_inj, show (1 : Word).toNat = 1 from rfl]
  omega

end ThreadIds

namespace TaskInfo
variable {t : TaskInfo} {n : ℕ}

theorem utcbAllocate_eq_some {k : ℕ} (h : (t.utcbAllocate n).1 = some k) :
    k < n ∧ t.utcbMask.bt k = false ∧ (∀ j < k, t.utcbMask.bt j = true) ∧
      (t.utcbAllocate n).2 = { t with utcbMask := t.utcbMask.bts k } := by
  rw [utcbAllocate] at h ⊢
  simp only [bitAllocateAtomic_eq] at h ⊢
  cases hfirst : BitPool.firstClear t.utcbMask (totWords n) with
  | none => simp [hfirst] at h
  | some i =>
    simp only [hfirst] at h ⊢
    split_ifs at h with hi
    obtain rfl := some.inj h
    obtain ⟨-, hclear, hbelow⟩ := BitPool.firstClear_eq_some hfirst
    exact ⟨not_le.1 hi, hclear, hbelow, rfl⟩

theorem hasOneThread_iff (hlt : ∀ k, t.utcbMask.bt k = true → k < n) :
    t.hasOneThread n = true ↔ ∀ k, t.utcbMask.bt k = true ↔ k = 0 := by
  rw [hasOneThread, decide_eq_true_eq]
  constructor
  · rintro ⟨hzero, hrest⟩ k
    rw [Bits.Str.bt]
    by_cases hk : k / 32 = 0
    · rw [hk, hzero, show (1 : Word) = 1#32 from rfl, BitVec.getLsbD_one]
      simp only [Bool.and_eq_true, decide_eq_true_eq]
      omega
    · refine iff_of_false (fun hbit => ?_) (by omega)
      have hkn := hlt k hbit
      have hmem : k / 32 ∈ range' 1 (n / sizeofWord) := by
        rw [mem_range'_1, sizeofWord]
        omega
      rw [hrest _ hmem] at hbit
      simp at hbit
  · intro hall
    have hword : ∀ i, ∀ j < 32, (t.utcbMask i).getLsbD j = decide (32 * i + j = 0) := by
      intro i j hj
      rw [← Bits.Str.bt_mul_add _ _ hj, Bool.eq_iff_iff, hall, decide_eq_true_eq]
    refine ⟨?_, fun i hi => ?_⟩
    · grind
    · have hpos := (mem_range'_1.1 hi).1
      apply BitVec.eq_of_getLsbD_eq
      intro j hj
      rw [hword i j hj, Bool.eq_iff_iff]
      simp only [decide_eq_true_eq]
      refine iff_of_false (by omega) ?_
      simp

end TaskInfo

namespace SpaceTables
variable {n : ℕ} {s s' : SpaceTables}

theorem withSpaceTid_of_ne {t : TaskInfo} (h : t.spaceTid ≠ 0) (tid : Word) :
    withSpaceTid t tid = t := if_pos (decide_eq_true h)

theorem withSpaceTid_of_eq {t : TaskInfo} (h : t.spaceTid = 0) (tid : Word) :
    withSpaceTid t tid = { t with spaceTid := tid } := by
  refine if_neg fun hhas => ?_
  have hne : t.spaceTid ≠ 0 := of_decide_eq_true hhas
  exact hne h

theorem taskOf_eq_some {t t' : UserTables} {m : Word → Option ℕ}
    (hm : Probing.Represents 0 maxTasks t.pageDirs m) {pageDir : Word} (hne : pageDir ≠ 0)
    {i : ℕ} (h : taskOf t pageDir = some (i, t')) :
    m pageDir = some i ∧ t' = t ∨
      m pageDir = none ∧ i < maxTasks ∧ t.pageDirs i = 0 ∧
        t' = t.setTask i ⟨pageDir, fun _ => 0, 0⟩ := by
  have hfind := hm.find_eq hne (hashPageDir_lt pageDir)
  rw [taskOf, findByPageDir, hfind] at h
  cases hmap : m pageDir with
  | some j => grind
  | none =>
    simp only [hmap, Bool.false_eq_true, if_false] at h
    obtain heq | ⟨j, hj, hempty, heq⟩ := allocateTask_cases t pageDir
    · simp_all
    · simp only [heq, some.injEq, Prod.mk.injEq] at h
      obtain ⟨rfl, rfl⟩ := h
      refine .inr ⟨rfl, hj, hempty, ?_⟩
      simp only [setTask, update_self, update_idem, init]

theorem allocateThread_eq_some {pageDir : Word} {th : UserThread}
    (h : s.allocateThread n pageDir = some (th, s')) :
    s.ids.mgr.threadIdAllocate.1 = some th.no ∧ th.pageDir = pageDir ∧
      ∃ t, taskOf s.tables pageDir = some (th.task, t) ∧
        ((t.tasks th.task).utcbAllocate n).1 = some th.uidx ∧
        decodeGtidVersion (threadId th.no th.uidx) = BitVec.ofNat 32 th.uidx ∧
        (t.threads th.info).tid = 0 ∧
        s' = ⟨(t.setTask th.task (withSpaceTid ((t.tasks th.task).utcbAllocate n).2
            (threadId th.no th.uidx))).setThread th.info ⟨threadId th.no th.uidx, some th.task⟩,
          s.ids.step .threadIdAllocate⟩ := by
  rw [allocateThread] at h
  simp only [bind_eq_bind, bind_eq_some_iff] at h
  obtain ⟨no, hno, ⟨i, t⟩, htask, uidx, huidx, h⟩ := h
  split_ifs at h with hwrap hspace
  rw [bind_eq_some_iff] at h
  obtain ⟨info, hinfo, h⟩ := h
  obtain ⟨rfl, rfl⟩ := Prod.mk.inj (some.inj h)
  obtain heq | ⟨j, -, hempty, heq⟩ := allocateThread_cases (t.setTask i
    (withSpaceTid ((t.tasks i).utcbAllocate n).2 (threadId no uidx))) (threadId no uidx)
  · have hnone := congrArg Prod.fst heq
    exact absurd (hinfo.symm.trans hnone) (by simp)
  · obtain rfl := some.inj (hinfo.symm.trans (congrArg Prod.fst heq))
    refine ⟨hno, rfl, t, htask, huidx, not_not.1 hwrap, hempty, ?_⟩
    have htables := congrArg Prod.snd heq
    simp only [threadId, setThread] at htables ⊢
    simp only [htables, update_idem]

end SpaceTables

namespace Spaces
open BitPool (Pool)

variable {g : SpaceConfig} {other : List Word} {s : Spaces} {p q : Pool 32}
  {m : Word → Option ℕ} {slot : ℕ → ℕ → Option Word} {state : SpaceTables}
  {th th' : UserThread} {i k info : ℕ} {no pageDir : Word} {nos : List Word}

@[simp] theorem state_add : (s.add th state).state = state := rfl

@[simp, grind =] theorem mem_live_add : th' ∈ (s.add th state).live ↔ th' = th ∨ th' ∈ s.live :=
  mem_cons

@[simp] theorem state_remove : (s.remove info nos state).state = state := rfl

@[simp, grind =] theorem mem_live_remove :
    th' ∈ (s.remove info nos state).live ↔ th' ∈ s.live ∧ th'.info ≠ info := by
  simp [remove]

def Held (slot : ℕ → ℕ → Option Word) (no : Word) : Prop := ∃ i k, slot i k = some no

structure Numbers (g : SpaceConfig) (other : List Word) (s : Spaces) (p q : Pool 32)
    (slot : ℕ → ℕ → Option Word) : Prop where
  sim : Allocations.Sim g.startup s.state.ids p q
  mem_tids : ∀ no, no ∈ s.state.ids.tids ↔ no ∈ other ∨ Held slot no
  fresh : ∀ no, Held slot no → no ∉ other
  inj : ∀ i k i' k' no, slot i k = some no → slot i' k' = some no → i = i' ∧ k = k'
  bound : ∀ i k, slot i k ≠ none → i < maxTasks ∧ k < g.maxThreads ∧ k < 2 ^ 13
  first : ∀ i k, slot i k ≠ none → slot i 0 ≠ none
  held : ∀ no, Held slot no → s.allocated.count no = s.released.count no + 1
  free : ∀ no, ¬ Held slot no → s.allocated.count no = s.released.count no

structure SpaceId (no tid : Word) (alive : Prop) : Prop where
  threadNo : l4ThreadNo tid = no
  ne_zero : tid ≠ 0
  version : l4Version tid ≠ 0 ↔ alive

def HasFirst (s : Spaces) (i : ℕ) : Prop := ∃ th ∈ s.live, th.task = i ∧ th.uidx = 0

structure Tasks (s : Spaces) (m : Word → Option ℕ) (slot : ℕ → ℕ → Option Word) :
    Prop where
  dirs : Probing.Represents 0 maxTasks s.state.tables.pageDirs m
  used : ∀ i < maxTasks, s.state.tables.pageDirs i ≠ 0 ↔ slot i 0 ≠ none
  mask : ∀ i, slot i 0 ≠ none → ∀ k,
    (s.state.tables.tasks i).utcbMask.bt k = (slot i k).isSome
  space : ∀ i no, slot i 0 = some no →
    s.space i = no ∧ SpaceId no (s.state.tables.tasks i).spaceTid (s.HasFirst i)

structure Threads (s : Spaces) (slot : ℕ → ℕ → Option Word) : Prop where
  entry : ∀ th ∈ s.live,
    s.state.tables.threads th.info = ⟨threadId th.no th.uidx, some th.task⟩
  slot_eq : ∀ th ∈ s.live, slot th.task th.uidx = some th.no
  pageDir : ∀ th ∈ s.live, s.state.tables.pageDirs th.task = th.pageDir
  slot_inj : ∀ th ∈ s.live, ∀ th' ∈ s.live, th.task = th'.task → th.uidx = th'.uidx → th = th'

structure Core (g : SpaceConfig) (other : List Word) (s : Spaces) (p q : Pool 32)
    (m : Word → Option ℕ) (slot : ℕ → ℕ → Option Word) : Prop
    extends Numbers g other s p q slot, Tasks s m slot, Threads s slot

def Keeps (s : Spaces) (i k : ℕ) : Prop := ∃ th ∈ s.live, th.task = i ∧ (k ≠ 0 → th.uidx = k)

def Peopled (s : Spaces) (slot : ℕ → ℕ → Option Word) : Prop :=
  ∀ i k, slot i k ≠ none → s.Keeps i k

theorem Core.first_of_mem (h : Core g other s p q m slot) (hth : th ∈ s.live) :
    slot th.task 0 ≠ none := h.first th.task th.uidx (by simp [h.slot_eq th hth])

theorem Core.inUse_iff (h : Core g other s p q m slot) (hs : s.Peopled slot) (no : Word) :
    s.InUse no ↔ Held slot no := by
  constructor
  · rintro ⟨th, hth, rfl | rfl⟩
    · exact ⟨_, _, h.slot_eq th hth⟩
    · obtain ⟨no, hno⟩ := ne_none_iff_exists'.1 (h.first_of_mem hth)
      exact ⟨_, 0, hno.trans (congrArg some (h.space _ _ hno).1.symm)⟩
  · rintro ⟨i, k, hik⟩
    obtain ⟨th, hth, rfl, hk⟩ := hs i k (by simp [hik])
    refine ⟨th, hth, ?_⟩
    by_cases hzero : k = 0
    · subst hzero
      exact .inr (h.space _ _ hik).1.symm
    · rw [← hk hzero, h.slot_eq th hth] at hik
      exact .inl (some.inj hik).symm

theorem Core.lifeCycle (h : Core g other s p q m slot) (hs : s.Peopled slot) :
    s.LifeCycle where
  task_iff i hi := by
    rw [h.used i hi]
    constructor
    · intro hne
      obtain ⟨th, hth, rfl, -⟩ := hs i 0 hne
      exact ⟨th, hth, rfl⟩
    · rintro ⟨th, hth, rfl⟩
      exact h.first_of_mem hth
  pageDir := h.pageDir
  once no := by
    split_ifs with huse
    · exact h.held no ((h.inUse_iff hs no).1 huse)
    · exact h.free no (mt (h.inUse_iff hs no).2 huse)

theorem toNat_of_mem_tids {ids : Allocations} (h : Allocations.Sim g.startup ids p q)
    (hno : no ∈ ids.tids) : 0 < no.toNat ∧ no.toNat < 2 ^ 18 := by
  rw [h.tids] at hno
  obtain ⟨k, hk, rfl⟩ := mem_map.1 hno
  have hlt := (h.inv_tid.lt k hk).trans_le (space_le g.startup)
  have hpos := g.start_pos
  have hle := g.numbers
  rw [Startup.tid, BitVec.toNat_add, BitVec.toNat_ofNat]
  omega

theorem Numbers.toNat_no (h : Numbers g other s p q slot) (hik : slot i k = some no) :
    0 < no.toNat ∧ no.toNat < 2 ^ 18 :=
  toNat_of_mem_tids h.sim ((h.mem_tids no).2 (.inr ⟨i, k, hik⟩))

theorem spaceId_threadId (hno : 0 < no.toNat ∧ no.toNat < 2 ^ 18) {alive : Prop} (h : alive) :
    SpaceId no (threadId no 0) alive := by
  refine ⟨l4ThreadNo_l4GlobalId hno.2, l4GlobalId_ne_zero hno.2 hno.1, iff_of_true ?_ h⟩
  rw [(l4Version_threadId hno.2 (by decide)).2 rfl]
  decide

theorem SpaceId.invalidate {t : TaskInfo} {alive alive' : Prop} (h : SpaceId no t.spaceTid alive)
    (hno : 0 < no.toNat ∧ no.toNat < 2 ^ 18) (hdead : ¬ alive') :
    SpaceId no t.invalidateSpaceTid.spaceTid alive' := by
  rw [invalidateSpaceTid, h.threadNo]
  refine ⟨l4ThreadNo_l4GlobalId hno.2, l4GlobalId_ne_zero hno.2 hno.1, iff_of_false ?_ hdead⟩
  rw [not_not, ← BitVec.toNat_inj, toNat_l4Version_l4GlobalId hno.2]
  rfl

section Tables
variable (t : UserTables) (i j a : ℕ) (e : TaskInfo) (x : ThreadInfo)

@[simp] theorem tasks_setThread :
    ((t.setTask i e).setThread j x).tasks a = if a = i then e else t.tasks a :=
  update_apply ..

@[simp] theorem threads_setThread :
    ((t.setTask i e).setThread j x).threads a = if a = j then x else t.threads a :=
  update_apply ..

@[simp] theorem pageDirs_setThread :
    ((t.setTask i e).setThread j x).pageDirs = update t.pageDirs i e.pageDir :=
  pageDirs_setTask t i e

end Tables

theorem Core.taskOf (h : Core g other s p q m slot) (hne : pageDir ≠ 0) {t : UserTables}
    (ht : SpaceTables.taskOf s.state.tables pageDir = some (i, t)) :
    i < maxTasks ∧ (t.tasks i).pageDir = pageDir ∧ t = s.state.tables.setTask i (t.tasks i) ∧
      (∃ m', Probing.Represents 0 maxTasks
        (update s.state.tables.pageDirs i pageDir) m') ∧
      (∀ k, (t.tasks i).utcbMask.bt k = (slot i k).isSome) ∧
      (slot i 0 ≠ none ∧ t.tasks i = s.state.tables.tasks i ∨
        (∀ k, slot i k = none) ∧ (t.tasks i).spaceTid = 0) := by
  obtain ⟨hm, rfl⟩ | ⟨hm, hi, hempty, rfl⟩ := SpaceTables.taskOf_eq_some h.dirs hne ht
  · obtain ⟨hi, hdir⟩ := (h.dirs pageDir hne i).1 hm
    have hused := (h.used i hi).1 (by rw [hdir]; exact hne)
    refine ⟨hi, hdir, ?_, ⟨m, ?_⟩, h.mask i hused, .inl ⟨hused, rfl⟩⟩
    · rw [setTask, update_eq_self]
    · rw [← hdir, update_eq_self]
      exact h.dirs
  · have hnone : ∀ k, slot i k = none := fun k => by
      by_contra hk
      exact (h.used i hi).2 (h.first i k hk) hempty
    refine ⟨hi, ?_, ?_, ⟨_, h.dirs.put hne hm hi hempty⟩, fun k => ?_, .inr ⟨hnone, ?_⟩⟩
    all_goals simp [setTask, hnone, Bits.Str.bt]

theorem Numbers.no_fresh (h : Numbers g other s p q slot)
    (hno : s.state.ids.mgr.threadIdAllocate.1 = some no) :
    (s.state.ids.step .threadIdAllocate).tids = no :: s.state.ids.tids ∧
      no ∉ s.state.ids.tids ∧ 0 < no.toNat ∧ no.toNat < 2 ^ 18 := by
  have hsim := sim_threadIdAllocate h.sim
  have htids : (s.state.ids.step .threadIdAllocate).tids = no :: s.state.ids.tids := by
    rw [Allocations.step, hno]
    rfl
  have hnodup := hsim.tids_nodup
  rw [htids] at hnodup
  refine ⟨htids, (nodup_cons.1 hnodup).1, toNat_of_mem_tids hsim ?_⟩
  rw [htids]
  exact mem_cons_self

def put (slot : ℕ → ℕ → Option Word) (i k : ℕ) (x : Option Word) (a b : ℕ) :
    Option Word := if a = i ∧ b = k then x else slot a b

theorem put_self {x : Option Word} : put slot i k x i k = x := if_pos ⟨rfl, rfl⟩

theorem held_put_some (hfree : slot i k = none) {no' : Word} :
    Held (put slot i k (some no)) no' ↔ no' = no ∨ Held slot no' := by
  constructor
  · rintro ⟨a, b, hab⟩
    rw [put] at hab
    split_ifs at hab
    · exact .inl (some.inj hab).symm
    · exact .inr ⟨a, b, hab⟩
  · rintro (rfl | ⟨a, b, hab⟩)
    · exact ⟨i, k, put_self⟩
    · exact ⟨a, b, by grind [put]⟩

theorem Numbers.held_put_none (h : Numbers g other s p q slot) (hik : slot i k = some no)
    {no' : Word} : Held (put slot i k none) no' ↔ no' ≠ no ∧ Held slot no' := by
  constructor
  · rintro ⟨a, b, hab⟩
    rw [put] at hab
    split_ifs at hab with hne
    exact ⟨by grind [h.inj a b i k no'], a, b, hab⟩
  · rintro ⟨hne, a, b, hab⟩
    exact ⟨a, b, by grind [put]⟩

theorem Core.task_after (h : Core g other s p q m slot) (no : Word) (hne : pageDir ≠ 0)
    {t : UserTables} (ht : SpaceTables.taskOf s.state.tables pageDir = some (i, t))
    (hk : ((t.tasks i).utcbAllocate g.maxThreads).1 = some k) :
    ∃ e : TaskInfo, SpaceTables.withSpaceTid ((t.tasks i).utcbAllocate g.maxThreads).2
        (threadId no k) = e ∧ t.setTask i e = s.state.tables.setTask i e ∧ e.pageDir = pageDir ∧
      (∀ b, e.utcbMask.bt b = (put slot i k (some no) i b).isSome) ∧ slot i k = none ∧
      (k ≠ 0 ∧ slot i 0 ≠ none ∧ e.spaceTid = (s.state.tables.tasks i).spaceTid ∨
        k = 0 ∧ (∀ b, slot i b = none) ∧ e.spaceTid = threadId no 0) := by
  obtain ⟨hi, hdir, hset, -, hmask, hcase⟩ := h.taskOf hne ht
  obtain ⟨-, hclear, hbelow, hafter⟩ := utcbAllocate_eq_some hk
  have hfree : slot i k = none := by
    rw [hmask] at hclear
    simpa using hclear
  refine ⟨_, rfl, ?_, ?_, fun b => ?_, hfree, ?_⟩
  · rw [hset]
    simp only [setTask, update_self, update_idem]
  · rw [SpaceTables.withSpaceTid]
    split_ifs <;> exact hdir
  · have hbits : (SpaceTables.withSpaceTid ((t.tasks i).utcbAllocate g.maxThreads).2
        (threadId no k)).utcbMask = (t.tasks i).utcbMask.bts k := by
      rw [SpaceTables.withSpaceTid, hafter]
      split_ifs <;> rfl
    rw [hbits, Bits.Str.bt_bts _ (by decide), hmask, put]
    by_cases hb : b = k
    · simp [hb]
    · simp [hb, Ne.symm hb]
  · rw [hafter]
    obtain ⟨hused, heq⟩ | ⟨hnone, hspace⟩ := hcase
    · refine .inl ⟨?_, hused, ?_⟩
      · rintro rfl
        exact hused hfree
      · obtain ⟨no', hno'⟩ := ne_none_iff_exists'.1 hused
        have hhas : (t.tasks i).spaceTid ≠ 0 := by
          rw [heq]
          exact (h.space i no' hno').2.ne_zero
        rw [SpaceTables.withSpaceTid_of_ne
          (t := { t.tasks i with utcbMask := (t.tasks i).utcbMask.bts k }) hhas, heq]
    · have hzero : k = 0 := by
        by_contra hpos
        have hbit := hbelow 0 (Nat.pos_of_ne_zero hpos)
        simp [hmask, hnone] at hbit
      refine .inr ⟨hzero, hnone, ?_⟩
      rw [SpaceTables.withSpaceTid_of_eq
        (t := { t.tasks i with utcbMask := (t.tasks i).utcbMask.bts k }) hspace, hzero]

theorem Numbers.take (h : Numbers g other s p q slot)
    (hno : s.state.ids.mgr.threadIdAllocate.1 = some no)
    (hbound : i < maxTasks ∧ k < g.maxThreads ∧ k < 2 ^ 13)
    (hfirst : k = 0 ∨ slot i 0 ≠ none) (hfree : slot i k = none) (t : UserTables) :
    Numbers g other (s.add ⟨info, i, k, no, pageDir⟩ ⟨t, s.state.ids.step .threadIdAllocate⟩)
      (p.step (totWords g.startup.space) g.startup.space .allocate) q
      (put slot i k (some no)) := by
  obtain ⟨htids, hfresh, -⟩ := h.no_fresh hno
  have hnot := mt (h.mem_tids no).2 hfresh
  constructor
  case sim => exact sim_threadIdAllocate h.sim
  case mem_tids =>
    intro no'
    rw [held_put_some hfree, state_add, htids, mem_cons, h.mem_tids]
    exact or_left_comm
  case fresh => grind [held_put_some, h.fresh]
  case inj =>
    have hnew : ∀ a b, slot a b ≠ some no := fun a b hab => hnot (.inr ⟨a, b, hab⟩)
    grind [put, h.inj]
  case bound =>
    intro a b hab
    have := h.bound a b
    grind [put]
  case first => grind [put, h.first]
  case held => grind [add, held_put_some, h.held, h.free]
  case free => grind [add, held_put_some, h.free]

theorem Tasks.take (h : Tasks s m slot) (hs : s.Peopled slot)
    (hslot : ∀ th ∈ s.live, slot th.task th.uidx ≠ none) {e : TaskInfo}
    {m' : Word → Option ℕ}
    (hm' : Probing.Represents 0 maxTasks (update s.state.tables.pageDirs i e.pageDir) m')
    (hne : e.pageDir ≠ 0) (hno : 0 < no.toNat ∧ no.toNat < 2 ^ 18)
    (hmask : ∀ b, e.utcbMask.bt b = (put slot i k (some no) i b).isSome)
    (hcase : k ≠ 0 ∧ slot i 0 ≠ none ∧ e.spaceTid = (s.state.tables.tasks i).spaceTid ∨
      k = 0 ∧ (∀ b, slot i b = none) ∧ e.spaceTid = threadId no 0)
    (x : ThreadInfo) (ids : Allocations) :
    Tasks (s.add ⟨info, i, k, no, pageDir⟩
      ⟨(s.state.tables.setTask i e).setThread info x, ids⟩) m' (put slot i k (some no)) := by
  constructor
  case dirs => simpa using hm'
  case used =>
    intro a ha
    rw [state_add, pageDirs_setThread, update_apply]
    grind [put, h.used]
  case mask => simp only [state_add, tasks_setThread]; grind [put, h.mask]
  case space =>
    intro a no' ha
    -- another space thread is alive if it was
    have hfirst : a ≠ i ∨ k ≠ 0 → (HasFirst (s.add ⟨info, i, k, no, pageDir⟩
        ⟨(s.state.tables.setTask i e).setThread info x, ids⟩) a ↔ s.HasFirst a) := by
      intro hne
      simp only [HasFirst, mem_live_add, exists_eq_or_imp]
      grind
    rw [state_add, tasks_setThread]
    by_cases hai : a = i
    · subst hai
      rw [if_pos rfl]
      obtain ⟨hk, -, hspace⟩ | ⟨rfl, hnone, hspace⟩ := hcase
      · rw [put, if_neg fun h => hk h.2.symm] at ha
        obtain ⟨hno', hrest⟩ := h.space a no' ha
        obtain ⟨th, hth, htask, -⟩ := hs a 0 (by simp [ha])
        rw [hspace, hfirst (.inr hk)]
        exact ⟨(congrFun (if_pos ⟨th, hth, htask⟩) a).trans hno', hrest⟩
      · obtain rfl := some.inj (put_self.symm.trans ha)
        have hnew : ¬ ∃ th ∈ s.live, th.task = a := by
          rintro ⟨th, hth, rfl⟩
          exact hslot th hth (hnone _)
        rw [hspace]
        exact ⟨(congrFun (if_neg hnew) a).trans (update_self ..),
          spaceId_threadId hno ⟨_, mem_live_add.2 (.inl rfl), rfl, rfl⟩⟩
    · rw [put, if_neg fun h => hai h.1] at ha
      obtain ⟨hno', hrest⟩ := h.space a no' ha
      rw [if_neg hai, hfirst (.inl hai)]
      refine ⟨?_, hrest⟩
      rw [← hno', add]
      split_ifs
      · rfl
      · exact update_of_ne hai ..

theorem Threads.take (h : Threads s slot) (hinfo : ∀ th ∈ s.live, th.info ≠ info)
    (hfree : slot i k = none) {e : TaskInfo} (hdir : e.pageDir = pageDir)
    (hold : ∀ th ∈ s.live, th.task = i → th.pageDir = pageDir) (ids : Allocations) :
    Threads (s.add ⟨info, i, k, no, pageDir⟩
      ⟨(s.state.tables.setTask i e).setThread info ⟨threadId no k, some i⟩, ids⟩)
      (put slot i k (some no)) := by
  have hslot : ∀ th ∈ s.live, ¬ (th.task = i ∧ th.uidx = k) := by
    rintro th hth ⟨rfl, rfl⟩
    rw [h.slot_eq th hth] at hfree
    cases hfree
  constructor
  case entry => simp only [state_add, threads_setThread]; grind [h.entry]
  case slot_eq => grind [put, h.slot_eq]
  case pageDir =>
    simp only [state_add, pageDirs_setThread, update_apply]
    grind [h.pageDir]
  case slot_inj => grind [h.slot_inj]

theorem Peopled.take (hs : s.Peopled slot) (state : SpaceTables) :
    (s.add ⟨info, i, k, no, pageDir⟩ state).Peopled (put slot i k (some no)) := by
  intro a b hab
  rw [put] at hab
  split_ifs at hab with hnew
  · exact ⟨_, mem_live_add.2 (.inl rfl), hnew.1.symm, fun _ => hnew.2.symm⟩
  · obtain ⟨th, hth, htask, huidx⟩ := hs a b hab
    exact ⟨th, mem_live_add.2 (.inr hth), htask, huidx⟩

/-- **`allocate_thread` keeps the invariant.** -/
theorem Core.allocate (h : Core g other s p q m slot) (hs : s.Peopled slot) (hne : pageDir ≠ 0)
    (hstate : s.state.allocateThread g.maxThreads pageDir = some (th, state)) :
    ∃ p' m' slot', Core g other (s.add th state) p' q m' slot' ∧
      (s.add th state).Peopled slot' := by
  obtain ⟨info, i, k, no, pageDir⟩ := th
  obtain ⟨hno, hdir, t, ht, hk, hversion, hinfo, rfl⟩ := SpaceTables.allocateThread_eq_some hstate
  dsimp only at hno hdir ht hk hversion hinfo ⊢
  subst hdir
  obtain ⟨hi, hdir, hset, ⟨m', hm'⟩, -, hfound⟩ := h.taskOf hne ht
  obtain ⟨hklt, -⟩ := utcbAllocate_eq_some hk
  obtain ⟨e, he, htask, rfl, hmask, hfree, hcase⟩ := h.task_after no hne ht hk
  obtain ⟨-, -, hpos, hlt⟩ := h.no_fresh hno
  have hk13 := (decodeGtidVersion_threadId hlt (hklt.trans g.maxThreads_lt)).1 hversion
  have hslot : ∀ th ∈ s.live, slot th.task th.uidx ≠ none := fun th hth => by
    simp [h.slot_eq th hth]
  rw [he, htask]
  have hlive : ∀ th ∈ s.live, th.info ≠ info := by
    rintro th hth rfl
    rw [hset] at hinfo
    obtain ⟨hpos', hlt'⟩ := h.toNat_no (h.slot_eq th hth)
    exact l4GlobalId_ne_zero hlt' hpos'
      ((congrArg ThreadInfo.tid (h.entry th hth)).symm.trans hinfo)
  have hold : ∀ th ∈ s.live, th.task = i → th.pageDir = e.pageDir := by
    rintro th hth rfl
    obtain ⟨-, heq⟩ | ⟨hnone, -⟩ := hfound
    · rw [← h.pageDir th hth, ← hdir, heq]
      rfl
    · exact absurd (hnone _) (hslot th hth)
  refine ⟨p.step (totWords g.startup.space) g.startup.space .allocate, m', put slot i k (some no),
    ⟨?_, ?_, ?_⟩, hs.take _⟩
  · exact h.toNumbers.take hno ⟨hi, hklt, hk13⟩ (hcase.elim (fun h => .inr h.2.1) fun h => .inl h.1)
      hfree _
  · exact h.toTasks.take hs hslot hm' hne ⟨hpos, hlt⟩ hmask hcase _ _
  · exact h.toThreads.take hlive hfree rfl hold _

theorem Numbers.drop (h : Numbers g other s p q slot) (hik : slot i k = some no)
    (hlast : k = 0 → ∀ b, slot i b ≠ none → b = 0) (s' : Spaces)
    (hids : s'.state.ids = s.state.ids.step (.threadIdRelease no))
    (hallocated : s'.allocated = s.allocated)
    (hreleased : ∀ no', s'.released.count no' = s.released.count no' + if no' = no then 1 else 0) :
    ∃ p', Numbers g other s' p' q (put slot i k none) := by
  have hno : Held slot no := ⟨i, k, hik⟩
  obtain ⟨j, hj, rfl⟩ := mem_map.1 (h.sim.tids ▸ (h.mem_tids no).2 (.inr hno))
  refine ⟨p.step (totWords g.startup.space) g.startup.space (.release j), ?_⟩
  constructor
  case sim =>
    rw [hids]
    exact sim_threadIdRelease h.sim hj
  case mem_tids =>
    intro no'
    rw [hids]
    change no' ∈ s.state.ids.tids.erase (g.startup.tid j) ↔ _
    rw [List.Nodup.mem_erase_iff h.sim.tids_nodup, h.mem_tids, h.held_put_none hik]
    grind [h.fresh]
  case fresh => exact fun no' hno' => h.fresh no' ((h.held_put_none hik).1 hno').2
  case inj => grind [put, h.inj]
  case bound =>
    intro a b hab
    have := h.bound a b
    grind [put]
  case first => grind [put, h.first]
  case held => grind [h.held_put_none hik, h.held]
  case free => grind [h.held_put_none hik, h.held, h.free]

theorem Numbers.congr (h : Numbers g other s p q slot) {s' : Spaces}
    (hids : s'.state.ids = s.state.ids) (hallocated : s'.allocated = s.allocated)
    (hreleased : ∀ no, s'.released.count no = s.released.count no) :
    Numbers g other s' p q slot := by
  refine ⟨hids ▸ h.sim, hids ▸ h.mem_tids, h.fresh, h.inj, h.bound, h.first, ?_, ?_⟩
  · simpa only [hallocated, hreleased] using h.held
  · simpa only [hallocated, hreleased] using h.free

section Remove
variable {slot' : ℕ → ℕ → Option Word} {e : TaskInfo} {ids : Allocations}

def cleared (s : Spaces) (th : UserThread) (nos : List Word) (e : TaskInfo)
    (ids : Allocations) : Spaces :=
  s.remove th.info nos ⟨(s.state.tables.setTask th.task e).setThread th.info ⟨0, none⟩, ids⟩

theorem pageDirs_cleared (hdir : e.pageDir = (s.state.tables.tasks th.task).pageDir) :
    (s.cleared th nos e ids).state.tables.pageDirs = s.state.tables.pageDirs := by
  rw [cleared, state_remove, pageDirs_setThread, hdir]
  exact update_eq_self ..

theorem Threads.remove (h : Threads s slot) (hth : th ∈ s.live)
    (hslot : ∀ a b, ¬ (a = th.task ∧ b = th.uidx) → slot' a b = slot a b)
    (hdir : e.pageDir = (s.state.tables.tasks th.task).pageDir) :
    Threads (s.cleared th nos e ids) slot' := by
  constructor
  case entry => simp only [cleared, state_remove, threads_setThread]; grind [h.entry]
  case slot_eq => grind [cleared, h.slot_eq, h.slot_inj]
  case pageDir => rw [pageDirs_cleared hdir]; grind [cleared, h.pageDir]
  case slot_inj => grind [cleared, h.slot_inj]

theorem Tasks.remove (h : Tasks s m slot)
    (hslot : ∀ a b, ¬ (a = th.task ∧ b = th.uidx) → slot' a b = slot a b)
    (hzero : ∀ a, slot' a 0 = slot a 0)
    (hdir : e.pageDir = (s.state.tables.tasks th.task).pageDir)
    (hmask : ∀ b, e.utcbMask.bt b = (slot' th.task b).isSome)
    (hspace : ∀ no, slot th.task 0 = some no →
      SpaceId no e.spaceTid ((s.cleared th nos e ids).HasFirst th.task))
    (hinfo : ∀ th' ∈ s.live, th'.info = th.info → th' = th) :
    Tasks (s.cleared th nos e ids) m slot' := by
  constructor
  case dirs => rw [pageDirs_cleared hdir]; exact h.dirs
  case used => rw [pageDirs_cleared hdir]; simpa only [hzero] using h.used
  case mask =>
    simp only [cleared, state_remove, tasks_setThread]
    grind [h.mask]
  case space =>
    intro a no ha
    rw [hzero] at ha
    obtain ⟨hno, hold⟩ := h.space a no ha
    refine ⟨hno, ?_⟩
    simp only [cleared, state_remove, tasks_setThread]
    split_ifs with htask
    · subst htask
      exact hspace no ha
    · have hfirst : (s.cleared th nos e ids).HasFirst a ↔ s.HasFirst a := by
        simp only [HasFirst, cleared, mem_live_remove]
        grind
      exact ⟨hold.threadNo, hold.ne_zero, hold.version.trans hfirst.symm⟩

end Remove
end Spaces

namespace SpaceTables
variable {n : ℕ} {s : SpaceTables} {no : Word} {i k : ℕ}

theorem deleteOwn_first (hno : no.toNat < 2 ^ 18) : s.deleteOwn n (threadId no 0) i =
    some ([], { s with tables := s.tables.setTask i (s.tables.tasks i).invalidateSpaceTid }) :=
  if_pos ((l4Version_threadId hno (by decide)).2 rfl)

theorem deleteOwn_other (hno : no.toNat < 2 ^ 18) (hk : k < 2 ^ 13) (hkn : k < n) (hpos : k ≠ 0) :
    s.deleteOwn n (threadId no k) i = some ([no],
      ⟨s.tables.setTask i ((s.tables.tasks i).utcbRelease k),
        s.ids.step (.threadIdRelease no)⟩) := by
  have hdecode : (decodeGtidVersion (threadId no k)).toNat = k := by
    rw [(decodeGtidVersion_threadId hno (by omega)).2 hk, BitVec.toNat_ofNat]
    omega
  have hthread : l4ThreadNo (threadId no k) = no := l4ThreadNo_l4GlobalId hno
  rw [deleteOwn, if_neg fun hv => hpos ((l4Version_threadId hno hk).1 hv)]
  simp only [hdecode, hthread, release]
  rw [if_pos hkn]

theorem retire_setThread (info : ℕ) (x : ThreadInfo) :
    retire n { s with tables := s.tables.setThread info x } i =
      ((s.retire n i).1,
        { (s.retire n i).2 with tables := (s.retire n i).2.tables.setThread info x }) := by
  by_cases hretire : (s.tables.tasks i).hasOneThread n = true ∧
      (s.tables.tasks i).isSpaceTidValid = false
  · have hleft : retire n { s with tables := s.tables.setThread info x } i = _ := if_pos hretire
    have hright : s.retire n i = _ := if_pos hretire
    rw [hleft, hright]
    rfl
  · have hleft : retire n { s with tables := s.tables.setThread info x } i = _ := if_neg hretire
    have hright : s.retire n i = _ := if_neg hretire
    rw [hleft, hright]

end SpaceTables
namespace Spaces
open BitPool (Pool)

variable {g : SpaceConfig} {other : List Word} {s : Spaces} {p q : Pool 32}
  {m : Word → Option ℕ} {slot : ℕ → ℕ → Option Word} {th : UserThread} {i : ℕ}
  {no : Word}

theorem Core.info_inj (h : Core g other s p q m slot) (hth : th ∈ s.live) (th' : UserThread)
    (hth' : th' ∈ s.live) (hinfo : th'.info = th.info) : th' = th := by
  have hentry := h.entry th' hth'
  rw [hinfo, h.entry th hth, ThreadInfo.mk.injEq] at hentry
  obtain ⟨htid, -⟩ := hentry
  have hno : th.no = th'.no := by
    rw [← l4ThreadNo_l4GlobalId (h.toNat_no (h.slot_eq th hth)).2,
      ← l4ThreadNo_l4GlobalId (h.toNat_no (h.slot_eq th' hth')).2]
    exact congrArg l4ThreadNo htid
  obtain ⟨htask, huidx⟩ := h.inj _ _ _ _ _ (hno ▸ h.slot_eq th hth) (h.slot_eq th' hth')
  exact h.slot_inj th' hth' th hth htask.symm huidx.symm

theorem count_released (released : List Word) (no no' : Word) :
    ([no] ++ released).count no' = released.count no' + if no' = no then 1 else 0 := by
  by_cases hno : no' = no
  · simp [hno]
  · simp [hno, Ne.symm hno]

def PeopledBut (s : Spaces) (slot : ℕ → ℕ → Option Word) (i : ℕ) : Prop :=
  ∀ a b, slot a b ≠ none → a = i ∧ b = 0 ∨ s.Keeps a b

theorem Core.keeps_cleared (h : Core g other s p q m slot) (hs : s.Peopled slot)
    (hth : th ∈ s.live) {nos : List Word} {e : TaskInfo} {ids : Allocations} {a b : ℕ}
    (hab : slot a b ≠ none) (hne : ¬ (a = th.task ∧ b = th.uidx)) :
    a = th.task ∧ b = 0 ∨ (s.cleared th nos e ids).Keeps a b := by
  obtain ⟨th', hth', htask, huidx⟩ := hs a b hab
  by_cases hinfo : th'.info = th.info
  · obtain rfl := h.info_inj hth th' hth' hinfo
    refine .inl ⟨htask.symm, ?_⟩
    by_contra hb
    exact hne ⟨htask.symm, (huidx hb).symm⟩
  · exact .inr ⟨th', mem_live_remove.2 ⟨hth', hinfo⟩, htask, huidx⟩

/-- **The first half of `delete_thread`.** -/
theorem Core.deleteOwn (h : Core g other s p q m slot) (hs : s.Peopled slot)
    (hth : th ∈ s.live) : ∃ own e ids p' slot',
      s.state.deleteOwn g.maxThreads (threadId th.no th.uidx) th.task =
        some (own, ⟨s.state.tables.setTask th.task e, ids⟩) ∧
      Core g other (s.cleared th own e ids) p' q m slot' ∧ slot' th.task 0 ≠ none ∧
      (s.cleared th own e ids).PeopledBut slot' th.task := by
  have hheld := h.slot_eq th hth
  have hno := h.toNat_no hheld
  obtain ⟨-, hkn, hk⟩ := h.bound th.task th.uidx (by simp [hheld])
  have hused := h.first_of_mem hth
  have hspace := fun no hno => (h.space th.task no hno).2
  have hinfo := h.info_inj hth
  by_cases hzero : th.uidx = 0
  · refine ⟨[], (s.state.tables.tasks th.task).invalidateSpaceTid, s.state.ids, p, slot,
      by rw [hzero]; exact SpaceTables.deleteOwn_first hno.2, ⟨?_, ?_, ?_⟩, hused,
      fun a b hab => ?_⟩
    · exact h.toNumbers.congr rfl rfl fun _ => rfl
    · refine h.toTasks.remove (fun _ _ _ => rfl) (fun _ => rfl) rfl (h.mask th.task hused)
        (fun no' hno' => (hspace no' hno').invalidate (h.toNat_no hno') ?_) hinfo
      -- the space thread is the one that is deleted
      rintro ⟨th', hth', htask, huidx⟩
      obtain ⟨hmem, hne⟩ := mem_live_remove.1 hth'
      exact hne (congrArg _ (h.slot_inj th' hmem th hth htask (huidx.trans hzero.symm)))
    · exact h.toThreads.remove hth (fun _ _ _ => rfl) rfl
    · by_cases hne : a = th.task ∧ b = th.uidx
      · exact .inl ⟨hne.1, hne.2.trans hzero⟩
      · exact h.keeps_cleared hs hth hab hne
  · have hdrop : ∀ a b, ¬ (a = th.task ∧ b = th.uidx) →
        put slot th.task th.uidx none a b = slot a b := fun a b hab => if_neg hab
    have hfirst : ∀ a, put slot th.task th.uidx none a 0 = slot a 0 := fun a =>
      hdrop a 0 fun ha => hzero ha.2.symm
    obtain ⟨p', hnumbers⟩ := h.toNumbers.drop hheld (fun hk => absurd hk hzero)
      (s.cleared th [th.no] ((s.state.tables.tasks th.task).utcbRelease th.uidx)
        (s.state.ids.step (.threadIdRelease th.no))) rfl rfl (count_released s.released th.no)
    refine ⟨[th.no], _, _, p', put slot th.task th.uidx none,
      SpaceTables.deleteOwn_other hno.2 hk hkn hzero, ⟨hnumbers, ?_, ?_⟩, ?_, fun a b hab => ?_⟩
    · refine h.toTasks.remove hdrop hfirst rfl (fun b => ?_) (fun no' hno' => ?_) hinfo
      · change Bits.Str.bt (Bits.Str.btr (s.state.tables.tasks th.task).utcbMask th.uidx) b = _
        rw [Bits.Str.bt_btr, h.mask th.task hused, put]
        by_cases hb : b = th.uidx
        · simp [hb]
        · simp [hb, Ne.symm hb]
      · obtain ⟨hthread, hne, hvalid⟩ := hspace no' hno'
        refine ⟨hthread, hne, hvalid.trans ?_⟩
        simp only [HasFirst, cleared, mem_live_remove]
        grind
    · exact h.toThreads.remove hth hdrop rfl
    · rw [hfirst]
      exact hused
    · have hne : ¬ (a = th.task ∧ b = th.uidx) := fun heq => hab (if_pos heq)
      rw [hdrop a b hne] at hab
      exact h.keeps_cleared hs hth hab hne

theorem Core.retires_iff (h : Core g other s p q m slot) (hi : slot i 0 = some no)
    (hs : s.PeopledBut slot i) :
    (s.state.tables.tasks i).hasOneThread g.maxThreads = true ∧
        (s.state.tables.tasks i).isSpaceTidValid = false ↔
      ¬ ∃ th ∈ s.live, th.task = i := by
  have hmask := h.mask i (by simp [hi])
  have hone := hasOneThread_iff (t := s.state.tables.tasks i) (n := g.maxThreads)
    fun b hb => (h.bound i b (by rwa [hmask, isSome_iff_ne_none] at hb)).2.1
  have hinvalid : (s.state.tables.tasks i).isSpaceTidValid = false ↔ ¬ s.HasFirst i := by
    rw [← (h.space i no hi).2.version]
    exact decide_eq_false_iff_not
  rw [hone, hinvalid]
  simp only [hmask, isSome_iff_ne_none]
  constructor
  · rintro ⟨hbits, hspace⟩ ⟨th, hth, rfl⟩
    exact hspace ⟨th, hth, rfl, (hbits th.uidx).1 (by simp [h.slot_eq th hth])⟩
  · intro hnone
    refine ⟨fun b => ⟨fun hb => ?_, ?_⟩, fun ⟨th, hth, htask, _⟩ => hnone ⟨th, hth, htask⟩⟩
    · obtain ⟨-, hb⟩ | ⟨th, hth, htask, -⟩ := hs i b hb
      · exact hb
      · exact absurd ⟨th, hth, htask⟩ hnone
    · rintro rfl
      simp [hi]

section Retire
variable {ids : Allocations} {released : List Word}

theorem pageDirs_deallocateTask (t : UserTables) (a : ℕ) :
    (t.deallocateTask i).pageDirs a = if a = i then 0 else t.pageDirs a := by
  rw [deallocateTask, pageDirs_setTask]
  exact update_apply ..

theorem Tasks.retire (h : Tasks s m slot) :
    Tasks { s with state := ⟨s.state.tables.deallocateTask i, ids⟩, released := released }
      (MappedTables.remove m i) (put slot i 0 none) := by
  have htasks : ∀ a ≠ i, (s.state.tables.deallocateTask i).tasks a = s.state.tables.tasks a :=
    fun a ha => update_of_ne ha ..
  constructor
  case dirs =>
    rw [show (s.state.tables.deallocateTask i).pageDirs =
      update s.state.tables.pageDirs i 0 from pageDirs_setTask ..]
    exact h.dirs.clear i
  case used =>
    simp only [pageDirs_deallocateTask]
    grind [put, h.used]
  case mask => grind [put, h.mask]
  case space =>
    intro a no ha
    have hai : a ≠ i := by
      rintro rfl
      exact absurd (put_self.symm.trans ha) (by simp)
    have hspace := h.space a no ((if_neg fun hab => hai hab.1).symm.trans ha)
    rwa [← htasks a hai] at hspace

theorem Threads.retire (h : Threads s slot) (hnone : ¬ ∃ th ∈ s.live, th.task = i) :
    Threads { s with state := ⟨s.state.tables.deallocateTask i, ids⟩, released := released }
      (put slot i 0 none) := by
  refine ⟨h.entry, ?_, ?_, h.slot_inj⟩
  · grind [put, h.slot_eq]
  · simp only [pageDirs_deallocateTask]
    grind [h.pageDir]

/-- **The second half of `delete_thread`.** -/
theorem Core.retire (h : Core g other s p q m slot) (hi : slot i 0 ≠ none)
    (hs : s.PeopledBut slot i) (released : List Word)
    (hreleased : ∀ no', released.count no' =
      ((s.state.retire g.maxThreads i).1 ++ s.released).count no') :
    ∃ p' m' slot', Core g other
        { s with state := (s.state.retire g.maxThreads i).2, released := released } p' q m' slot' ∧
      Peopled { s with state := (s.state.retire g.maxThreads i).2, released := released }
        slot' := by
  obtain ⟨no, hi⟩ := ne_none_iff_exists'.1 hi
  have hretires := h.retires_iff hi hs
  by_cases halive : ∃ th ∈ s.live, th.task = i
  · have heq : s.state.retire g.maxThreads i = ([], s.state) :=
      if_neg fun hc => hretires.1 hc halive
    rw [heq] at hreleased ⊢
    refine ⟨p, m, slot, ⟨h.toNumbers.congr rfl rfl hreleased, ⟨h.dirs, h.used, h.mask, h.space⟩,
      ⟨h.entry, h.slot_eq, h.pageDir, h.slot_inj⟩⟩, fun a b hab => ?_⟩
    obtain ⟨rfl, rfl⟩ | hth := hs a b hab
    · obtain ⟨th, hth, htask⟩ := halive
      exact ⟨th, hth, htask, fun hb => absurd rfl hb⟩
    · exact hth
  · have hnumber : l4ThreadNo (s.state.tables.tasks i).getSpaceTid = no := by
      rw [getSpaceTid, (h.space i no hi).2.threadNo]
      exact l4ThreadNo_l4GlobalId (h.toNat_no hi).2
    have heq : s.state.retire g.maxThreads i = ([no],
        ⟨s.state.tables.deallocateTask i, s.state.ids.step (.threadIdRelease no)⟩) := by
      refine (if_pos (hretires.2 halive)).trans ?_
      rw [SpaceTables.release, hnumber]
    have hlast : ∀ b, slot i b ≠ none → b = 0 := by
      intro b hb
      obtain ⟨-, hb⟩ | ⟨th, hth, htask, -⟩ := hs i b hb
      · exact hb
      · exact absurd ⟨th, hth, htask⟩ halive
    rw [heq] at hreleased ⊢
    obtain ⟨p', hnumbers⟩ := h.toNumbers.drop hi (fun _ => hlast)
      { s with
        state := ⟨s.state.tables.deallocateTask i, s.state.ids.step (.threadIdRelease no)⟩
        released := released } rfl rfl
      fun no' => (hreleased no').trans (count_released s.released no no')
    refine ⟨p', MappedTables.remove m i, put slot i 0 none,
      ⟨hnumbers, h.toTasks.retire, h.toThreads.retire halive⟩, fun a b hab => ?_⟩
    have hne : ¬ (a = i ∧ b = 0) := fun heq => hab (if_pos heq)
    rw [put, if_neg hne] at hab
    exact (hs a b hab).resolve_left hne

end Retire

/-- **`delete_thread` keeps the invariant.** -/
theorem Core.delete (h : Core g other s p q m slot) (hs : s.Peopled slot) (hth : th ∈ s.live) :
    ∃ nos state, s.state.deleteThread g.maxThreads th.info = some (nos, state) ∧
      ∃ p' m' slot', Core g other (s.remove th.info nos state) p' q m' slot' ∧
        (s.remove th.info nos state).Peopled slot' := by
  obtain ⟨own, e, ids, p', slot', hown, hcore, hno, hpeopled⟩ := h.deleteOwn hs hth
  have hretire := SpaceTables.retire_setThread (n := g.maxThreads)
    (s := ⟨s.state.tables.setTask th.task e, ids⟩) (i := th.task) th.info ⟨0, none⟩
  set r := SpaceTables.retire g.maxThreads ⟨s.state.tables.setTask th.task e, ids⟩ th.task
  have hdelete : s.state.deleteThread g.maxThreads th.info = some (own ++ r.1,
      { r.2 with tables := r.2.tables.setThread th.info ⟨0, none⟩ }) := by
    rw [SpaceTables.deleteThread, h.entry th hth]
    simp only [bind_eq_bind, bind_some, hown]
    rfl
  have hafter : (s.cleared th own e ids).state.retire g.maxThreads th.task = _ := hretire
  refine ⟨_, _, hdelete, ?_⟩
  obtain ⟨p'', m', slot'', hcore', hpeopled'⟩ := hcore.retire hno hpeopled
    ((own ++ r.1) ++ s.released) fun no' => by
      rw [hafter]
      change _ = (r.1 ++ (own ++ s.released)).count no'
      simp only [count_append]
      omega
  rw [hafter] at hcore' hpeopled'
  exact ⟨p'', m', slot'', hcore', hpeopled'⟩

def NoZeroDir : SpaceOp → Prop
  | .allocateThread pageDir => pageDir ≠ 0
  | .deleteThread _ => True

def Inv (g : SpaceConfig) (other : List Word) (s : Spaces) : Prop :=
  ∃ p q m slot, Core g other s p q m slot ∧ s.Peopled slot

theorem inv_step {op : SpaceOp} (hdir : NoZeroDir op) (hs : Inv g other s) (hop : s.Alive op) :
    Inv g other (step g.maxThreads s op) := by
  obtain ⟨p, q, m, slot, h, hpeopled⟩ := hs
  cases op with
  | allocateThread pageDir =>
    rw [step]
    cases hstate : s.state.allocateThread g.maxThreads pageDir with
    | none => exact ⟨p, q, m, slot, h, hpeopled⟩
    | some r =>
      obtain ⟨p', m', slot', hcore, hpeopled'⟩ := h.allocate hpeopled hdir hstate
      exact ⟨p', q, m', slot', hcore, hpeopled'⟩
  | deleteThread info =>
    obtain ⟨th, hth, rfl⟩ := hop
    obtain ⟨nos, state, hstate, p', m', slot', hcore, hpeopled'⟩ := h.delete hpeopled hth
    rw [step, hstate]
    exact ⟨p', q, m', slot', hcore, hpeopled'⟩

theorem inv_start {ids : Allocations} {p q : Pool 32} (h : Allocations.Sim g.startup ids p q) :
    Inv g ids.tids (start ids) := by
  refine ⟨p, q, fun _ => none, fun _ _ => none, ⟨⟨h, fun no => ?_, ?_, ?_, ?_, ?_, ?_, ?_⟩,
    ⟨Probing.represents_empty, fun i _ => ?_, ?_, ?_⟩, ⟨?_, ?_, ?_, ?_⟩⟩, ?_⟩
  all_goals simp [start, Held, Peopled, UserTables.pageDirs, UserTables.empty]

/-- **If each thread is deleted once and no page directory lies at 0, a task exists exactly as long
as it has a thread, and every thread number is released once**, whatever was allocated before. -/
theorem lifeCycle_of_ne_zero (g : SpaceConfig) (before : List Allocations.Op)
    (hbefore : Runs.Guarded Allocations.step Allocations.Ok (Allocations.start g.startup) before)
    (ops : List SpaceOp)
    (halive : Runs.Guarded (step g.maxThreads) Alive
      (start (run Allocations.step (Allocations.start g.startup) before)) ops)
    (hdirs : ∀ op ∈ ops, NoZeroDir op) :
    (run (step g.maxThreads)
      (start (run Allocations.step (Allocations.start g.startup) before)) ops).LifeCycle := by
  obtain ⟨p, q, hsim⟩ := Allocations.sim_run (Allocations.sim_start g.startup) hbefore
  have hinv := run_invariant_of_mem (A := NoZeroDir)
    (I := Inv g (run Allocations.step (Allocations.start g.startup) before).tids)
    (fun _ _ hdir hs hop => inv_step hdir hs hop) (inv_start hsim) hdirs halive
  obtain ⟨p, q, m, slot, h, hpeopled⟩ := hinv
  exact h.lifeCycle hpeopled

def smallSpaces : SpaceConfig where
  startup := fifthThread
  maxThreads := 256
  maxThreads_lt := by decide
  start_pos := by decide
  numbers := by decide

theorem lifeCycle_space_first : (run (step 256) (start (Allocations.start
      smallSpaces.startup)) [.allocateThread 0x1000, .allocateThread 0x1000, .deleteThread 0,
        .deleteThread 1]).LifeCycle ∧
    (run (step 256) (start (Allocations.start smallSpaces.startup))
      [.allocateThread 0x1000, .allocateThread 0x1000, .deleteThread 0]).released = [] := by
  refine ⟨lifeCycle_of_ne_zero smallSpaces [] trivial _ ?_ ?_, ?_⟩
  · decide +kernel
  · intro op hop
    fin_cases hop
    · exact (by decide : (0x1000 : Word) ≠ 0)
    · exact (by decide : (0x1000 : Word) ≠ 0)
    · trivial
    · trivial
  · decide +kernel

theorem not_lifeCycle_zero :
    Runs.Guarded (step 256) Alive (start (Allocations.start smallSpaces.startup))
        [.allocateThread 0, .allocateThread 0x1000, .deleteThread 0] ∧
      (let s := run (step 256) (start (Allocations.start smallSpaces.startup))
        [.allocateThread 0, .allocateThread 0x1000, .deleteThread 0]
      s.live = [⟨1, 0, 0, 0x1001, 0x1000⟩] ∧ s.state.tables.pageDirs 0 = 0 ∧
        s.released = [0x1001] ∧ ¬ s.LifeCycle) := by
  have hlive : (run (step 256) (start (Allocations.start smallSpaces.startup))
      [.allocateThread 0, .allocateThread 0x1000, .deleteThread 0]).live =
        [⟨1, 0, 0, 0x1001, 0x1000⟩] := by decide +kernel
  have hdir : (run (step 256) (start (Allocations.start smallSpaces.startup))
      [.allocateThread 0, .allocateThread 0x1000, .deleteThread 0]).state.tables.pageDirs 0 =
        0 := by decide +kernel
  refine ⟨by decide +kernel, hlive, hdir, by decide +kernel, fun h => ?_⟩
  refine (h.task_iff 0 (by decide)).2 ⟨⟨1, 0, 0, 0x1001, 0x1000⟩, ?_, rfl⟩ hdir
  rw [hlive]
  exact mem_singleton.2 rfl

end Spaces
end Wedge
