import Mathlib.Data.List.Basic
import Mathlib.Logic.Function.Basic
import Afterburner.Lib.Runs

/-!
# Registering a client with the block server

The register handler takes a handle, looks up the client's space and allocates shared pages; each
may fail.
-/

namespace DriverReuse.BlockRegister
open Runs Function

def pageShift : ℕ := 12

structure Fpage where
  base : BitVec 32
  log2size : ℕ
  deriving DecidableEq

/-- The size of the shared region, and `L4_FpageLog2` of the L4 library. -/
structure Setup where
  log2size : ℕ
  fpageLog2 : BitVec 32 → ℕ → Fpage

variable (k : Setup)

structure AllignedAlloc where
  start : BitVec 32
  actualLog2size : ℕ
  fpage : Fpage
  deriving DecidableEq

def fpageAlloc (pages : ℕ → BitVec 32) (info : AllignedAlloc) : Bool × AllignedAlloc :=
  let req := max k.log2size pageShift
  let order := req - pageShift
  let info := { info with actualLog2size := req, start := pages order }
  if info.start = 0 then (false, info)
  else
    let info := { info with fpage := k.fpageLog2 info.start req }
    if info.fpage.base = info.start then (true, info)
    else
      -- twice the size, so that it can be aligned
      let info := { info with actualLog2size := req + 1, start := pages (order + 1) }
      if info.start = 0 then (false, info)
      else (true, { info with fpage := k.fpageLog2 (info.start + 1#32 <<< req) req })

def maxClients : ℕ := 8
def descriptorRingSize : ℕ := 400

structure RingInfo where
  startFree : ℕ
  startDirty : ℕ
  cnt : ℕ

structure ClientInfo where
  handle : Option ℕ
  clientShared : Option (BitVec 32)
  clientAllocInfo : AllignedAlloc
  ringInfo : RingInfo
  bioRing : ℕ → Option ℕ
  clientSpace : Option ℕ

abbrev Clients := ℕ → ClientInfo
def handles (clients : Clients) (i : ℕ) : Option ℕ := (clients i).handle

def freeHandle (clients : Clients) : Option ℕ :=
  (List.range maxClients).find? fun i => (clients i).handle.isNone

def allocateClientHandle (clients : Clients) : Option (ℕ × Clients) :=
  (freeHandle clients).map fun i =>
    (i, update clients i { clients i with handle := some i })

def clientRelease (client : ClientInfo) : ClientInfo := { client with handle := none }

inductive RegisterFailure
  | noHandle
  | clientSpace
  | sharedAlloc
  deriving DecidableEq

structure Request where
  clientSpace : Option ℕ
  pages : ℕ → BitVec 32

section Handler
variable (clients : Clients) (r : Request)

def registerHandler : Except RegisterFailure ℕ × Clients :=
  match allocateClientHandle clients with
  | none => (.error .noHandle, clients)
  | some (handle, clients) =>
    let client := { clients handle with clientSpace := r.clientSpace }
    if r.clientSpace = none then
      -- `err_client_space`: the handle stays handed out
      (.error .clientSpace, update clients handle client)
    else
      let alloc := fpageAlloc k r.pages client.clientAllocInfo
      let client := { client with clientAllocInfo := alloc.2 }
      if alloc.1 then
        (.ok handle, update clients handle
          { client with
            clientShared := some alloc.2.fpage.base
            ringInfo := ⟨0, 0, descriptorRingSize⟩
            bioRing := fun i => if i < descriptorRingSize then none else client.bioRing i })
      else (.error .sharedAlloc, update clients handle (clientRelease client))

def step : Clients := (registerHandler k clients r).2

def Fails : Prop :=
  ∃ f, (registerHandler k clients r).1 = .error f

/-- The entry that the request takes has its space and the record of its allocation already. -/
def LeavesTable : Prop :=
  ∀ i, freeHandle clients = some i →
    r.clientSpace ≠ none ∧ r.clientSpace = (clients i).clientSpace ∧
      (fpageAlloc k r.pages (clients i).clientAllocInfo).2 = (clients i).clientAllocInfo

/-- The request does not fail at the lookup of the client's space. -/
def FindsSpace : Prop := freeHandle clients = none ∨ r.clientSpace ≠ none

variable {clients}

theorem handle_of_freeHandle {i : ℕ} (h : freeHandle clients = some i) :
    (clients i).handle = none := by
  have hi := List.find?_some h
  exact Option.isNone_iff_eq_none.mp hi

theorem registerHandler_of_full (h : freeHandle clients = none) (r : Request) :
    registerHandler k clients r = (.error .noHandle, clients) := by
  simp only [registerHandler, allocateClientHandle, h, Option.map_none]

variable {r}

theorem registerHandler_of_fails {i : ℕ} (hi : freeHandle clients = some i)
    (hf : Fails k clients r) :
    (r.clientSpace = none ∧ registerHandler k clients r =
      (.error .clientSpace, update clients i
        { clients i with handle := some i, clientSpace := none })) ∨
    (r.clientSpace ≠ none ∧ registerHandler k clients r =
      (.error .sharedAlloc, update clients i
        { clients i with
          clientSpace := r.clientSpace
          clientAllocInfo :=
            (fpageAlloc k r.pages (clients i).clientAllocInfo).2 })) := by
  have hnone := handle_of_freeHandle hi
  obtain ⟨f, hf⟩ := hf
  by_cases hs : r.clientSpace = none
  · simp [registerHandler, allocateClientHandle, hi, hs]
  · right
    refine ⟨hs, ?_⟩
    cases halloc : (fpageAlloc k r.pages (clients i).clientAllocInfo).1 with
    | true => simp [registerHandler, allocateClientHandle, hi, hs, halloc] at hf
    | false =>
      simp [registerHandler, allocateClientHandle, hi, hs, halloc, clientRelease, hnone]

section
variable (hf : Fails k clients r)
include hf

theorem handles_step (hspace : FindsSpace clients r) :
    handles (step k clients r) = handles clients := by
  funext j
  cases hi : freeHandle clients with
  | none => simp only [step, registerHandler_of_full k hi]
  | some i =>
    rcases registerHandler_of_fails k hi hf with ⟨hs, -⟩ | ⟨-, h⟩
    · simp [FindsSpace, hi, hs] at hspace
    · simp only [handles, step, h]
      rcases eq_or_ne j i with rfl | hj
      · rw [update_self]
      · rw [update_of_ne hj]

theorem exists_handle_of_not_findsSpace (hspace : ¬ FindsSpace clients r) :
    ∃ i, handles clients i = none ∧ handles (step k clients r) i = some i := by
  cases hi : freeHandle clients with
  | none => exact absurd (.inl hi) hspace
  | some i =>
    refine ⟨i, handle_of_freeHandle hi, ?_⟩
    rcases registerHandler_of_fails k hi hf with ⟨-, h⟩ | ⟨hs, -⟩
    · simp only [handles, step, h, update_self]
    · exact absurd (.inr hs) hspace

theorem handles_step_of_some {i h : ℕ} (hi : handles clients i = some h) :
    handles (step k clients r) i = some h := by
  by_cases hspace : FindsSpace clients r
  · rw [handles_step k hf hspace, hi]
  · cases hfree : freeHandle clients with
    | none => exact absurd (.inl hfree) hspace
    | some j =>
      have hne : i ≠ j := by
        rintro rfl
        rw [handles, handle_of_freeHandle hfree] at hi
        cases hi
      rcases registerHandler_of_fails k hfree hf with ⟨-, heq⟩ | ⟨-, heq⟩
      · simpa only [handles, step, heq, update_of_ne hne] using hi
      · simpa only [handles, step, heq, update_of_ne hne] using hi

theorem step_eq_iff : step k clients r = clients ↔ LeavesTable k clients r := by
  cases hi : freeHandle clients with
  | none => simp [step, LeavesTable, registerHandler_of_full k hi, hi]
  | some i =>
    have hnone := handle_of_freeHandle hi
    simp only [LeavesTable, hi, Option.some.injEq, forall_eq']
    rcases registerHandler_of_fails k hi hf with ⟨hs, h⟩ | ⟨hs, h⟩
    · -- the entry has a handle now and had none
      simp only [step, h, update_eq_self_iff, hs, ne_eq, not_true_eq_false, false_and,
        iff_false]
      intro heq
      have := congrArg ClientInfo.handle heq
      simp [hnone] at this
    · simp only [step, h, update_eq_self_iff, ne_eq, hs, not_false_eq_true, true_and]
      constructor
      · grind
      · rintro ⟨h₁, h₂⟩
        rw [h₁, h₂]

end

section
variable {rs : List Request} (hf : Guarded (step k) (Fails k) clients rs)
include hf

theorem handles_run_of_some {i h : ℕ} (hi : handles clients i = some h) :
    handles (run (step k) clients rs) i = some h :=
  run_invariant (I := fun c => handles c i = some h)
    (fun _ _ hc hr => handles_step_of_some k hr hc) hi hf

theorem handles_run_iff :
    handles (run (step k) clients rs) = handles clients ↔
      Guarded (step k) FindsSpace clients rs := by
  induction rs generalizing clients with
  | nil => simp [Guarded]
  | cons r rs ih =>
    obtain ⟨hr, hrs⟩ := hf
    rw [run_cons]
    by_cases hspace : FindsSpace clients r
    · rw [← handles_step k hr hspace, ih hrs]
      exact ⟨fun h => ⟨hspace, h⟩, fun h => h.2⟩
    · refine ⟨fun h => ?_, fun h => absurd h.1 hspace⟩
      obtain ⟨i, hnone, hsome⟩ := exists_handle_of_not_findsSpace k hr hspace
      have hlast := handles_run_of_some k hrs hsome
      rw [h, hnone] at hlast
      cases hlast

end

/-- **Failed registrations.** Each leaves the table as it was exactly when `LeavesTable` holds for
it, and the handles are the same after all of them exactly when none failed at the lookup of the
space. -/
theorem changes_run_iff (clients : Clients) (rs : List Request)
    (hf : Guarded (step k) (Fails k) clients rs) :
    (Guarded (step k) (fun c r => step k c r = c) clients rs ↔
      Guarded (step k) (LeavesTable k) clients rs) ∧
    (handles (run (step k) clients rs) = handles clients ↔
      Guarded (step k) FindsSpace clients rs) := by
  refine ⟨?_, handles_run_iff k hf⟩
  exact guarded_congr_of_guarded (I := fun _ => True) (fun _ _ _ _ => trivial)
    (fun _ _ _ hr => step_eq_iff k hr) trivial hf

end Handler

def noClients : Clients := fun _ =>
  ⟨none, none, ⟨0, 0, ⟨0, 0⟩⟩, ⟨0, 0, 0⟩, fun _ => none, none⟩

/-- A region of 16 KB, and addresses rounded down to the size of the page. -/
def l4Setup : Setup := ⟨14, fun addr size => ⟨addr &&& ~~~(1#32 <<< size - 1), size⟩⟩

def unknownSpace : Request := ⟨none, fun _ => 0x100000⟩
def knownSpace : Request := ⟨some 1, fun _ => 0x100000⟩

theorem changes_run_unknownSpace :
    (Guarded (step l4Setup) (fun c r => step l4Setup c r = c) noClients [unknownSpace] ↔
      Guarded (step l4Setup) (LeavesTable l4Setup) noClients [unknownSpace]) ∧
    (handles (run (step l4Setup) noClients [unknownSpace]) = handles noClients ↔
      Guarded (step l4Setup) FindsSpace noClients [unknownSpace]) :=
  changes_run_iff l4Setup noClients [unknownSpace] ⟨⟨.clientSpace, by decide⟩, trivial⟩

theorem refused_after_eight_failures :
    (registerHandler l4Setup noClients knownSpace).1 = .ok 0 ∧
    (registerHandler l4Setup noClients unknownSpace).1 = .error .clientSpace ∧
    handles (step l4Setup noClients unknownSpace) 0 ≠ handles noClients 0 ∧
    (registerHandler l4Setup (run (step l4Setup) noClients (List.replicate 8 unknownSpace))
      knownSpace).1 = .error .noHandle := by
  decide +kernel

end DriverReuse.BlockRegister
