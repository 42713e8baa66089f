import Afterburner.Lib.Probing
import Afterburner.Wedge.L4thread

/-!
# The tables of tasks and threads

Tasks are found by page directory and threads by id, by linear probing; directory 0 and the nil
thread mark free entries.
-/

namespace Wedge
open Function Option Probing Runs

structure TaskInfo where
  pageDir : Word
  utcbMask : Masks
  spaceTid : Word

namespace TaskInfo
variable (t : TaskInfo)

def init : TaskInfo := { t with utcbMask := fun _ => 0, spaceTid := 0 }

def utcbAllocate (maxThreads : ℕ) : Option ℕ × TaskInfo :=
  let r := bitAllocateAtomic t.utcbMask maxThreads
  (if r.1 ≥ maxThreads then none else some r.1, { t with utcbMask := r.2 })

def utcbRelease (uidx : ℕ) : TaskInfo := { t with utcbMask := t.utcbMask.btr uidx }

end TaskInfo

structure ThreadInfo where
  tid : Word
  ti : Option ℕ

structure UserTables where
  tasks : ℕ → TaskInfo
  threads : ℕ → ThreadInfo

def l4ThreadNo (tid : Word) : Word := tid >>> 14
def maxTasks : ℕ := 1024
def maxUserThreads : ℕ := 2048
def hashPageDir (pageDir : Word) : ℕ := (pageDir >>> 22).toNat % maxTasks
def hashTid (tid : Word) : ℕ := (l4ThreadNo tid).toNat % maxUserThreads

namespace UserTables
variable (s : UserTables)

def empty : UserTables := ⟨fun _ => ⟨0, fun _ => 0, 0⟩, fun _ => ⟨0, none⟩⟩
def pageDirs (i : ℕ) : Word := (s.tasks i).pageDir
def tids (i : ℕ) : Word := (s.threads i).tid
def setTask (i : ℕ) (t : TaskInfo) : UserTables := { s with tasks := update s.tasks i t }

def setThread (i : ℕ) (t : ThreadInfo) : UserTables :=
  { s with threads := update s.threads i t }

def allocateTask (pageDir : Word) : Option ℕ × UserTables :=
  match room hashPageDir 0 maxTasks s.pageDirs pageDir with
  | some i => (some i, s.setTask i { s.tasks i with pageDir := pageDir })
  | none => (none, s)

def findByPageDir (pageDir : Word) (alloc : Bool) : Option (Option ℕ × UserTables) :=
  match find hashPageDir maxTasks s.pageDirs pageDir with
  | some i => some (some i, s)
  | none =>
    if alloc = true then
      match s.allocateTask pageDir with
      | (some i, s) => some (some i, s.setTask i (s.tasks i).init)
      | (none, _) => none
    else some (none, s)

def deallocateTask (i : ℕ) : UserTables := s.setTask i { (s.tasks i).init with pageDir := 0 }

def findByTid (tid : Word) : Option ℕ :=
  find hashTid maxUserThreads s.tids tid

def allocateThread (tid : Word) : Option ℕ × UserTables :=
  match room hashTid 0 maxUserThreads s.tids tid with
  | some i => (some i, s.setThread i { s.threads i with tid := tid })
  | none => (none, s)

def deallocateThread (i : ℕ) : UserTables := s.setThread i ⟨0, none⟩

inductive Op
  | findByPageDir (pageDir : Word) (alloc : Bool)
  | allocateTask (pageDir : Word)
  | deallocateTask (i : ℕ)
  | findByTid (tid : Word)
  | allocateThread (tid : Word)
  | deallocateThread (i : ℕ)

def exec : Op → Option (Option ℕ × UserTables)
  | .findByPageDir pageDir alloc => s.findByPageDir pageDir alloc
  | .allocateTask pageDir => some (s.allocateTask pageDir)
  | .deallocateTask i => some (none, s.deallocateTask i)
  | .findByTid tid => some (s.findByTid tid, s)
  | .allocateThread tid => some (s.allocateThread tid)
  | .deallocateThread i => some (none, s.deallocateThread i)

end UserTables

structure UserMaps where
  task : Word → Option ℕ
  thread : Word → Option ℕ

structure MappedTables where
  tables : UserTables
  maps : UserMaps

namespace MappedTables
open UserTables (Op)
variable (s : MappedTables)

def empty : MappedTables := ⟨.empty, fun _ => none, fun _ => none⟩

def remove (m : Word → Option ℕ) (i : ℕ) (k : Word) : Option ℕ :=
  if m k = some i then none else m k

def nextMaps (m : UserMaps) (p : Option ℕ) : Op → UserMaps
  | .findByPageDir pageDir alloc =>
    if alloc = true ∧ m.task pageDir = none then
      { m with task := update m.task pageDir p } else m
  | .allocateTask pageDir => { m with task := update m.task pageDir p }
  | .deallocateTask i => { m with task := remove m.task i }
  | .findByTid _ => m
  | .allocateThread tid => { m with thread := update m.thread tid p }
  | .deallocateThread i => { m with thread := remove m.thread i }

def step (op : Op) : MappedTables :=
  match s.tables.exec op with
  | some (p, t) => ⟨t, nextMaps s.maps p op⟩
  | none => s

def Allowed : Op → Prop
  | .findByPageDir pageDir _ => pageDir ≠ 0
  | .allocateTask pageDir => pageDir ≠ 0 ∧ s.maps.task pageDir = none
  | .findByTid tid => tid ≠ 0
  | .allocateThread tid => tid ≠ 0 ∧ s.maps.thread tid = none
  | .deallocateTask _ | .deallocateThread _ => True

def Agrees : Prop :=
  Probing.Represents 0 maxTasks s.tables.pageDirs s.maps.task ∧
    Probing.Represents 0 maxUserThreads s.tables.tids s.maps.thread

def NewTask (entry : TaskInfo → TaskInfo)
    (r : Option (Option ℕ × UserTables)) : Prop :=
  (Probing.Full 0 maxTasks s.tables.pageDirs → r = some (none, s.tables)) ∧
    (¬ Probing.Full 0 maxTasks s.tables.pageDirs → ∃ i < maxTasks, s.tables.pageDirs i = 0 ∧
      r = some (some i, s.tables.setTask i (entry (s.tables.tasks i))))

def NewThread (tid : Word) (r : Option (Option ℕ × UserTables)) : Prop :=
  (Probing.Full 0 maxUserThreads s.tables.tids → r = some (none, s.tables)) ∧
    (¬ Probing.Full 0 maxUserThreads s.tables.tids → ∃ i < maxUserThreads, s.tables.tids i = 0 ∧
      r = some (some i, s.tables.setThread i { s.tables.threads i with tid := tid }))

def Returns : Op → Prop
  | .findByPageDir pageDir alloc =>
    if alloc = true ∧ s.maps.task pageDir = none then
      s.NewTask (fun _ => ⟨pageDir, fun _ => 0, 0⟩) (s.tables.exec (.findByPageDir pageDir alloc))
    else s.tables.exec (.findByPageDir pageDir alloc) = some (s.maps.task pageDir, s.tables)
  | .allocateTask pageDir =>
    s.NewTask (fun t => { t with pageDir := pageDir }) (s.tables.exec (.allocateTask pageDir))
  | .deallocateTask i =>
    s.tables.exec (.deallocateTask i) = some (none, s.tables.setTask i ⟨0, fun _ => 0, 0⟩)
  | .findByTid tid => s.tables.exec (.findByTid tid) = some (s.maps.thread tid, s.tables)
  | .allocateThread tid => s.NewThread tid (s.tables.exec (.allocateThread tid))
  | .deallocateThread i =>
    s.tables.exec (.deallocateThread i) = some (none, s.tables.setThread i ⟨0, none⟩)

def Correct (op : Op) : Prop := s.Agrees ∧ s.Returns op

def HasRoom : Op → Prop
  | .findByPageDir pageDir alloc => alloc = true → s.maps.task pageDir = none →
    ¬ Probing.Full 0 maxTasks s.tables.pageDirs
  | _ => True

section Calls
variable {s}

theorem hashPageDir_lt (pageDir : Word) : hashPageDir pageDir < maxTasks :=
  Nat.mod_lt _ (by decide)

theorem hashTid_lt (tid : Word) : hashTid tid < maxUserThreads := Nat.mod_lt _ (by decide)

variable (t : UserTables)

theorem pageDirs_setTask (i : ℕ) (e : TaskInfo) :
    (t.setTask i e).pageDirs = update t.pageDirs i e.pageDir := by
  funext j
  by_cases hj : j = i
  · subst hj
    simp [UserTables.pageDirs, UserTables.setTask]
  · simp [UserTables.pageDirs, UserTables.setTask, hj]

theorem tids_setThread (i : ℕ) (e : ThreadInfo) :
    (t.setThread i e).tids = update t.tids i e.tid := by
  funext j
  by_cases hj : j = i
  · subst hj
    simp [UserTables.tids, UserTables.setThread]
  · simp [UserTables.tids, UserTables.setThread, hj]

theorem newTask_allocateTask (s : MappedTables) (pageDir : Word) :
    s.NewTask (fun t => { t with pageDir := pageDir })
      (some (s.tables.allocateTask pageDir)) := by
  have hroom : room hashPageDir 0 maxTasks s.tables.pageDirs pageDir = none ↔
      Probing.Full 0 maxTasks s.tables.pageDirs := room_eq_none_iff (hashPageDir_lt pageDir)
  rw [UserTables.allocateTask]
  cases h : room hashPageDir 0 maxTasks s.tables.pageDirs pageDir with
  | none => exact ⟨fun _ => rfl, fun hfull => absurd (hroom.1 h) hfull⟩
  | some i =>
    obtain ⟨hi, hempty⟩ := room_eq_some (hashPageDir_lt pageDir) h
    exact ⟨fun hfull => absurd hempty (hfull i hi), fun _ => ⟨i, hi, hempty, rfl⟩⟩

theorem newThread_allocateThread (s : MappedTables) (tid : Word) :
    s.NewThread tid (some (s.tables.allocateThread tid)) := by
  have hroom : room hashTid 0 maxUserThreads s.tables.tids tid = none ↔
      Probing.Full 0 maxUserThreads s.tables.tids := room_eq_none_iff (hashTid_lt tid)
  rw [UserTables.allocateThread]
  cases h : room hashTid 0 maxUserThreads s.tables.tids tid with
  | none => exact ⟨fun _ => rfl, fun hfull => absurd (hroom.1 h) hfull⟩
  | some i =>
    obtain ⟨hi, hempty⟩ := room_eq_some (hashTid_lt tid) h
    exact ⟨fun hfull => absurd hempty (hfull i hi), fun _ => ⟨i, hi, hempty, rfl⟩⟩

theorem allocateTask_cases (pageDir : Word) :
    t.allocateTask pageDir = (none, t) ∨ ∃ i < maxTasks, t.pageDirs i = 0 ∧
      t.allocateTask pageDir = (some i, t.setTask i { t.tasks i with pageDir := pageDir }) := by
  obtain ⟨hfull, hroom⟩ := newTask_allocateTask ⟨t, fun _ => none, fun _ => none⟩ pageDir
  by_cases h : Probing.Full 0 maxTasks t.pageDirs
  · exact .inl (some.inj (hfull h))
  · simp_all

theorem allocateThread_cases (tid : Word) :
    t.allocateThread tid = (none, t) ∨ ∃ i < maxUserThreads, t.tids i = 0 ∧
      t.allocateThread tid = (some i, t.setThread i { t.threads i with tid := tid }) := by
  obtain ⟨hfull, hroom⟩ := newThread_allocateThread ⟨t, fun _ => none, fun _ => none⟩ tid
  by_cases h : Probing.Full 0 maxUserThreads t.tids
  · exact .inl (some.inj (hfull h))
  · simp_all

theorem findByPageDir_eq (h : s.Agrees) {pageDir : Word} (hne : pageDir ≠ 0) (alloc : Bool) :
    (¬ (alloc = true ∧ s.maps.task pageDir = none) ∧
      s.tables.findByPageDir pageDir alloc = some (s.maps.task pageDir, s.tables)) ∨
    (alloc = true ∧ s.maps.task pageDir = none) ∧
      (Probing.Full 0 maxTasks s.tables.pageDirs ∧ s.tables.findByPageDir pageDir alloc = none ∨
      ¬ Probing.Full 0 maxTasks s.tables.pageDirs ∧ ∃ i < maxTasks, s.tables.pageDirs i = 0 ∧
        s.tables.findByPageDir pageDir alloc =
          some (some i, s.tables.setTask i ⟨pageDir, fun _ => 0, 0⟩)) := by
  have hfind := h.1.find_eq hne (hashPageDir_lt pageDir)
  have hnew := newTask_allocateTask s pageDir
  rw [UserTables.findByPageDir, hfind]
  cases hm : s.maps.task pageDir with
  | some i => exact .inl ⟨by simp, rfl⟩
  | none =>
    cases alloc with
    | false => exact .inl ⟨by simp, rfl⟩
    | true =>
      refine .inr ⟨⟨rfl, rfl⟩, ?_⟩
      by_cases hfull : Probing.Full 0 maxTasks s.tables.pageDirs
      · have hnew := hnew.1 hfull
        exact .inl ⟨hfull, by simp only [some.inj hnew, if_true]⟩
      · obtain ⟨i, hi, hempty, hnew⟩ := hnew.2 hfull
        refine .inr ⟨hfull, i, hi, hempty, ?_⟩
        simp only [some.inj hnew, if_true, UserTables.setTask, update_self,
          update_idem, TaskInfo.init]

theorem returns_iff (h : s.Agrees) {op : Op} (hop : s.Allowed op) :
    s.Returns op ↔ s.HasRoom op := by
  cases op with
  | findByPageDir pageDir alloc =>
    rw [Returns, HasRoom, UserTables.exec]
    obtain ⟨hold, heq⟩ | ⟨hnew, ⟨hfull, heq⟩ | ⟨hroom, hcell⟩⟩ := findByPageDir_eq h hop alloc
    · simp_all
    · rw [if_pos hnew, heq]
      refine iff_of_false (fun hreturns => ?_) fun hroom => hroom hnew.1 hnew.2 hfull
      exact absurd (hreturns.1 hfull) (by simp)
    · rw [if_pos hnew]
      exact iff_of_true ⟨fun hfull => absurd hfull hroom, fun _ => hcell⟩ fun _ _ => hroom
  | allocateTask pageDir => exact iff_of_true (newTask_allocateTask s pageDir) trivial
  | deallocateTask i => exact iff_of_true rfl trivial
  | findByTid tid =>
    refine iff_of_true ?_ trivial
    have hfind := h.2.find_eq hop (hashTid_lt tid)
    rw [Returns, UserTables.exec, UserTables.findByTid, hfind]
  | allocateThread tid => exact iff_of_true (newThread_allocateThread s tid) trivial
  | deallocateThread i => exact iff_of_true rfl trivial

theorem NewTask.represents {entry : TaskInfo → TaskInfo} {pageDir : Word} {p : Option ℕ}
    {t : UserTables} (hnew : s.NewTask entry (some (p, t))) (h : s.Agrees) (hne : pageDir ≠ 0)
    (hm : s.maps.task pageDir = none) (hentry : ∀ e, (entry e).pageDir = pageDir) :
    Probing.Represents 0 maxTasks t.pageDirs (update s.maps.task pageDir p) ∧
      t.tids = s.tables.tids := by
  by_cases hfull : Probing.Full 0 maxTasks s.tables.pageDirs
  · obtain ⟨rfl, rfl⟩ := Prod.mk.inj (some.inj (hnew.1 hfull))
    rw [← hm, update_eq_self]
    exact ⟨h.1, rfl⟩
  · obtain ⟨i, hi, hempty, heq⟩ := hnew.2 hfull
    obtain ⟨rfl, rfl⟩ := Prod.mk.inj (some.inj heq)
    rw [pageDirs_setTask, hentry]
    exact ⟨h.1.put hne hm hi hempty, rfl⟩

theorem NewThread.represents {tid : Word} {p : Option ℕ} {t : UserTables}
    (hnew : s.NewThread tid (some (p, t))) (h : s.Agrees) (hne : tid ≠ 0)
    (hm : s.maps.thread tid = none) :
    Probing.Represents 0 maxUserThreads t.tids (update s.maps.thread tid p) ∧
      t.pageDirs = s.tables.pageDirs := by
  by_cases hfull : Probing.Full 0 maxUserThreads s.tables.tids
  · obtain ⟨rfl, rfl⟩ := Prod.mk.inj (some.inj (hnew.1 hfull))
    rw [← hm, update_eq_self]
    exact ⟨h.2, rfl⟩
  · obtain ⟨i, hi, hempty, heq⟩ := hnew.2 hfull
    obtain ⟨rfl, rfl⟩ := Prod.mk.inj (some.inj heq)
    rw [tids_setThread]
    exact ⟨h.2.put hne hm hi hempty, rfl⟩

/-- **A call keeps the tables in agreement with the maps.** -/
theorem agrees_step (h : s.Agrees) {op : Op} (hop : s.Allowed op) : (s.step op).Agrees := by
  cases op with
  | findByPageDir pageDir alloc =>
    rw [step, UserTables.exec]
    obtain ⟨hold, heq⟩ | ⟨hnew, ⟨-, heq⟩ | ⟨hroom, hcell⟩⟩ := findByPageDir_eq h hop alloc
    · simp only [heq, nextMaps, if_neg hold]
      exact h
    · simp only [heq]
      exact h
    · obtain ⟨i, hi, hempty, heq⟩ := hcell
      simp only [heq, nextMaps, if_pos hnew]
      refine ⟨?_, h.2⟩
      have hput := h.1.put hop hnew.2 hi hempty
      rwa [← pageDirs_setTask s.tables i ⟨pageDir, fun _ => 0, 0⟩] at hput
  | allocateTask pageDir =>
    obtain ⟨htask, hthread⟩ := NewTask.represents (newTask_allocateTask s pageDir) h hop.1 hop.2
      fun _ => rfl
    exact ⟨htask, hthread ▸ h.2⟩
  | deallocateTask i =>
    have hclear := h.1.clear i
    rw [← pageDirs_setTask s.tables i ⟨0, fun _ => 0, 0⟩] at hclear
    exact ⟨hclear, h.2⟩
  | findByTid tid => exact h
  | allocateThread tid =>
    obtain ⟨hthread, htask⟩ := NewThread.represents (newThread_allocateThread s tid) h hop.1 hop.2
    exact ⟨htask ▸ h.1, hthread⟩
  | deallocateThread i =>
    have hclear := h.2.clear i
    rw [← tids_setThread s.tables i ⟨0, none⟩] at hclear
    exact ⟨h.1, hclear⟩

end Calls

/-- **With keys other than the mark, of which only new ones are allocated, the tables are finite
maps and every call does what it should, exactly when `find_by_page_dir` never allocates in a full
table.** -/
theorem correct_iff (ops : List Op) (h : Runs.Guarded step Allowed empty ops) :
    Runs.Guarded step Correct empty ops ↔ Runs.Guarded step HasRoom empty ops :=
  guarded_congr_of_guarded (I := Agrees) (fun _ _ hs hop => agrees_step hs hop)
    (fun _ _ hs hop => (and_iff_right hs).trans (returns_iff hs hop))
    ⟨represents_empty, represents_empty⟩ h

theorem correct_two_keys : Runs.Guarded step Correct empty
    [.allocateTask 0x1000, .findByPageDir 0x1000 true, .allocateThread 0x4001, .findByTid 0x4001,
      .deallocateTask 0] := by
  refine (correct_iff _ ?_).2 ?_
  · refine ⟨⟨by decide, rfl⟩, ?_, ⟨by decide, rfl⟩, ?_, trivial, trivial⟩
    · exact (by decide : (0x1000 : Word) ≠ 0)
    · exact (by decide : (0x4001 : Word) ≠ 0)
  · refine ⟨trivial, fun _ h => ?_, trivial, trivial, trivial, trivial⟩
    exact absurd h (by decide)

def pageDirOf (i : ℕ) : Word := BitVec.ofNat 32 (i * 2 ^ 22 + 0x1000)
def fill (n : ℕ) : List Op := (List.range n).map fun i => .allocateTask (pageDirOf i)

theorem toNat_pageDirOf {i : ℕ} (hi : i < maxTasks) :
    (pageDirOf i).toNat = i * 2 ^ 22 + 0x1000 := by
  have hmax : maxTasks = 1024 := rfl
  rw [pageDirOf, BitVec.toNat_ofNat]
  omega

theorem hashPageDir_pageDirOf {i : ℕ} (hi : i < maxTasks) : hashPageDir (pageDirOf i) = i := by
  have hmax : maxTasks = 1024 := rfl
  rw [hashPageDir, BitVec.toNat_ushiftRight, toNat_pageDirOf hi, hmax]
  omega

theorem pageDirOf_ne {i : ℕ} (hi : i < maxTasks) : pageDirOf i ≠ 0 := by
  grind [toNat_pageDirOf, BitVec]

theorem run_fill {n : ℕ} (hn : n ≤ maxTasks) :
    Runs.Guarded step Allowed empty (fill n) ∧ (run step empty (fill n)).Agrees ∧
      ∀ i, (run step empty (fill n)).tables.pageDirs i =
        if i < n then pageDirOf i else 0 := by
  induction n with
  | zero => exact ⟨trivial, ⟨represents_empty, represents_empty⟩, fun _ => rfl⟩
  | succ n ih =>
    obtain ⟨hguarded, hagrees, hdirs⟩ := ih (by omega)
    have hne := pageDirOf_ne (i := n) (by omega)
    have hnew : (run step empty (fill n)).maps.task (pageDirOf n) = none := by
      refine (hagrees.1.eq_none_iff hne).2 fun i hi heq => ?_
      rw [hdirs] at heq
      split_ifs at heq with hin
      · grind [hashPageDir, hashPageDir_pageDirOf]
      · exact hne heq.symm
    have hsplit : fill (n + 1) = fill n ++ [.allocateTask (pageDirOf n)] := by
      rw [fill, List.range_succ, List.map_append]
      rfl
    have hallowed : (run step empty (fill n)).Allowed (.allocateTask (pageDirOf n)) :=
      ⟨hne, hnew⟩
    rw [hsplit, run_append, guarded_snoc]
    refine ⟨⟨hguarded, hallowed⟩, agrees_step hagrees hallowed, fun i => ?_⟩
    have hroom : room hashPageDir 0 maxTasks
        (run step empty (fill n)).tables.pageDirs (pageDirOf n) = some n := by
      have hfree : (run step empty (fill n)).tables.pageDirs n = 0 := by
        rw [hdirs, if_neg (lt_irrefl n)]
      rw [room, hashPageDir_pageDirOf (by omega)]
      exact scan_of_start (by omega) (decide_eq_true hfree)
    change UserTables.pageDirs ((run step empty (fill n)).tables.allocateTask
      (pageDirOf n)).2 i = _
    rw [UserTables.allocateTask, hroom, pageDirs_setTask]
    by_cases hi : i = n
    · simp [*]
    · rw [update_of_ne hi, hdirs]
      exact if_congr (by omega) rfl rfl

theorem not_correct_of_full {s : MappedTables} (h : s.Agrees) {pageDir : Word}
    (hne : pageDir ≠ 0) (hnew : s.maps.task pageDir = none)
    (hfull : Probing.Full 0 maxTasks s.tables.pageDirs) :
    s.Allowed (.findByPageDir pageDir true) ∧ s.tables.findByPageDir pageDir true = none ∧
      ¬ s.Correct (.findByPageDir pageDir true) := by
  have hallowed : s.Allowed (.findByPageDir pageDir true) := hne
  refine ⟨hallowed, ?_, fun hcorrect => (returns_iff h hallowed).1 hcorrect.2 rfl hnew hfull⟩
  obtain ⟨hold, -⟩ | ⟨-, ⟨-, heq⟩ | ⟨hroom, -⟩⟩ := findByPageDir_eq h hne true
  · exact absurd ⟨rfl, hnew⟩ hold
  · exact heq
  · exact absurd hfull hroom

theorem not_correct_full :
    Runs.Guarded step Allowed empty (fill maxTasks ++ [.findByPageDir 0x2000 true]) ∧
      (run step empty (fill maxTasks)).tables.findByPageDir 0x2000 true = none ∧
      ¬ Runs.Guarded step Correct empty (fill maxTasks ++ [.findByPageDir 0x2000 true]) := by
  have hfill := run_fill (le_refl maxTasks)
  -- the list of the allocations is not to be computed
  generalize fill maxTasks = ops at hfill
  obtain ⟨hguarded, hagrees, hdirs⟩ := hfill
  rw [guarded_snoc, guarded_snoc]
  generalize run step empty ops = s at hagrees hdirs
  have hne : (0x2000 : Word) ≠ 0 := by decide
  have hfull : Probing.Full 0 maxTasks s.tables.pageDirs := by
    intro i hi
    rw [hdirs, if_pos hi]
    exact pageDirOf_ne hi
  have hnew : s.maps.task 0x2000 = none := by
    refine (hagrees.1.eq_none_iff hne).2 fun i hi heq => ?_
    rw [hdirs, if_pos hi] at heq
    have htoNat := toNat_pageDirOf hi
    rw [heq, show (0x2000 : Word).toNat = 0x2000 from rfl] at htoNat
    omega
  obtain ⟨hallowed, hnull, hwrong⟩ := not_correct_of_full hagrees hne hnew hfull
  exact ⟨⟨hguarded, hallowed⟩, hnull, fun hcorrect => hwrong hcorrect.2⟩

end MappedTables
end Wedge
