import Mathlib.Data.List.Perm.Subperm
import Afterburner.Lib.Linked
import Afterburner.Lib.Runs

/-!
# The clients of the PCI server

Clients are in a linked list, the devices of each in another; the nodes lie in objects from
`kmalloc`.
-/

namespace DriverReuse.Pci
open Linked Function List Runs Option

abbrev Word := BitVec 32
abbrev PciDev := ℕ

inductive Node
  | server
  | client (a : ℕ)
  | devs (a : ℕ)
  | dev (d : ℕ)
  deriving DecidableEq

def Node.object : Node → Option ℕ
  | .server => none
  | .client a => some a
  | .devs a => some a
  | .dev d => some d

structure Dev where
  idx : Word
  dev : PciDev
  writable : Bool

structure ConfigWrite where
  dev : PciDev
  reg : Word
  len : Word
  val : Word
  deriving DecidableEq

structure Server where
  links : Links Node
  tid : ℕ → Word
  dev : ℕ → Dev
  brk : ℕ
  freed : List ℕ
  writes : List ConfigWrite
  touched : List Node
  oops : Bool

variable (s : Server)

def init : Server where
  links := ⟨id, id⟩
  tid := fun _ => 0
  dev := fun _ => ⟨0, 0, false⟩
  brk := 0
  freed := []
  writes := []
  touched := []
  oops := false

inductive Reply
  | done
  | unknown
  | invalidClient
  | read (val : Word) (ret : Word)
  | write (ret : Word)
  deriving DecidableEq

def createClient (tid : Word) (mem : Bool) : Server × Option ℕ :=
  if mem then
    let a := s.brk
    ({ s with
        links := ((s.links.initHead (.client a)).initHead (.devs a)).add (.client a) .server
        tid := update s.tid a tid
        brk := a + 1
        touched := s.touched ++ [.client a, .server, s.links.next .server] }, some a)
  else (s, none)

def addDevice (client : ℕ) (idx : Word) (dev : Option PciDev) (mem : Bool) : Server :=
  if mem then
    match dev with
    | none => { s with oops := true }
    | some dev =>
      let d := s.brk
      { s with
        links := (s.links.initHead (.dev d)).add (.dev d) (.devs client)
        dev := update s.dev d ⟨idx, dev, true⟩
        brk := d + 1
        touched := s.touched ++ [.dev d, .devs client, s.links.next (.devs client)] }
  else s

def lookupClient (tid : Word) : List Node × Option ℕ :=
  let r := forEach s.links .server
    (fun n => n.object.any fun a => s.tid a = tid) (s.brk + 1) (s.links.next .server)
  (r.1, r.2.bind Node.object)

def lookupDevice (client : ℕ) (idx : Word) : List Node × Option ℕ :=
  let r := forEach s.links (.devs client)
    (fun n => n.object.any fun d => (s.dev d).idx = idx) (s.brk + 1) (s.links.next (.devs client))
  (.devs client :: r.1, r.2.bind Node.object)

def deregisterClient (client : ℕ) : Server :=
  let r := forEach s.links (.devs client) (fun _ => false) (s.brk + 1)
    (s.links.next (.devs client))
  { s with
    touched := s.touched ++ .devs client :: r.1
    freed := s.freed ++ r.1.filterMap Node.object ++ [client] }

def registerLoop (caller : Word) (clientMem : Bool) :
    Server → Option ℕ → Word → List (Option PciDev × Bool) → Server × Option Reply
  | s, _, _, [] => (s, some .done)
  | s, client, idx, (dev, mem) :: devs =>
    let created := match client with
      | some a => (s, some a)
      | none => createClient s caller clientMem
    match created with
    | (s, none) => (s, some .unknown)
    | (s, some a) =>
      let s := addDevice s a idx dev mem
      if s.oops then (s, none) else registerLoop caller clientMem s (some a) (idx + 1) devs

def registerHandler (caller : Word) (clientMem : Bool)
    (devs : List (Option PciDev × Bool)) : Server × Option Reply :=
  registerLoop caller clientMem s none 0 devs

def deregisterHandler (tid : Word) : Server × Option Reply :=
  let client := lookupClient s tid
  let s := { s with touched := s.touched ++ client.1 }
  match client.2 with
  | none => (s, some .invalidClient)
  | some a => (deregisterClient s a, some .done)

structure RwParams where
  idx : Word
  reg : Word
  len : Word
  offset : Word
  val : Word

def RwParams.address (p : RwParams) : Word := p.reg * 4 + p.offset

def lenMask (len : Word) : Option Word :=
  if len = 1 then some 0xff
  else if len = 2 then some 0xffff
  else if len = 4 then some 0xffffffff
  else none

def readHandler (caller : Word) (p : RwParams) (val ret : Word) :
    Server × Option Reply :=
  let client := lookupClient s caller
  let s := { s with touched := s.touched ++ client.1 }
  match client.2 with
  | none => (s, some .invalidClient)
  | some a =>
    let dev := lookupDevice s a p.idx
    let s := { s with touched := s.touched ++ dev.1 }
    match dev.2 with
    | none => (s, some (.read 0xffffffff 0))
    | some _ =>
      match lenMask p.len with
      | none => (s, some (.read 0 0))
      | some mask => (s, some (.read (val &&& mask) ret))

def writeHandler (caller : Word) (p : RwParams) (ret : Word) : Server × Option Reply :=
  let client := lookupClient s caller
  let s := { s with touched := s.touched ++ client.1 }
  match client.2 with
  | none => (s, some .invalidClient)
  | some a =>
    let dev := lookupDevice s a p.idx
    let s := { s with touched := s.touched ++ dev.1 }
    match dev.2 with
    | none => (s, some (.write 0))
    | some d =>
      if (s.dev d).writable then
        match lenMask p.len with
        | none => (s, some (.write 0))
        | some mask =>
          ({ s with writes := s.writes ++ [⟨(s.dev d).dev, p.address, p.len, p.val &&& mask⟩] },
            some (.write ret))
      else (s, some (.write 0))

inductive Command
  | register (caller : Word) (clientMem : Bool) (devs : List (Option PciDev × Bool))
  | deregister (caller tid : Word)
  | read (caller : Word) (p : RwParams) (val ret : Word)
  | write (caller : Word) (p : RwParams) (ret : Word)

def handle : Command → Server × Option Reply
  | .register caller clientMem devs => registerHandler s caller clientMem devs
  | .deregister _ tid => deregisterHandler s tid
  | .read caller p val ret => readHandler s caller p val ret
  | .write caller p ret => writeHandler s caller p ret

def step (c : Command) : Server :=
  if s.oops then { s with touched := [] } else (handle { s with touched := [] } c).1

def Command.Registers (t : Word) : Command → Prop
  | .register caller _ _ => caller = t
  | _ => False

def LookupFails (t : Word) : Prop :=
  (lookupClient s t).2 = none ∧ ∀ n ∈ (lookupClient s t).1, ∀ a, n.object = some a → a ∉ s.freed

structure Safe (cs : List Command) : Prop where
  untouched : ∀ pre c post, cs = pre ++ c :: post →
    ∀ n ∈ (step (run step init pre) c).touched, ∀ a, n.object = some a →
      a ∉ (run step init pre).freed
  gone : ∀ pre caller t mid post, cs = pre ++ .deregister caller t :: (mid ++ post) →
    (run step init pre).oops = false → (∀ c ∈ mid, ¬ c.Registers t) →
      LookupFails (run step init (pre ++ .deregister caller t :: mid)) t

def Misses : Command → Prop
  | .deregister _ t => s.oops = false → (lookupClient s t).2 = none
  | _ => True

def elems (clients : List ℕ) (devs : ℕ → List ℕ) : Node → List Node
  | .server => clients.map .client
  | .devs a => (devs a).map .dev
  | _ => []

def IsHead (clients : List ℕ) (n : Node) : Prop := n = .server ∨ ∃ a ∈ clients, n = .devs a

structure Inv (R : Word → Prop) (clients : List ℕ) (devs : ℕ → List ℕ) (s : Server) : Prop where
  lists : Lists s.links (IsHead clients) (elems clients devs)
  clients_lt : ∀ a ∈ clients, a < s.brk
  devs_lt : ∀ a, ∀ d ∈ devs a, d < s.brk
  no_devs : ∀ a, s.brk ≤ a → devs a = []
  tids : ∀ a ∈ clients, R (s.tid a)

section Inv
variable {R : Word → Prop} {clients : List ℕ} {devs : ℕ → List ℕ} {s}

theorem inv_init : Inv R [] (fun _ => []) init where
  lists := by
    constructor
    · rintro h (rfl | ⟨a, ha, -⟩)
      · exact ⟨⟨rfl, rfl⟩, nodup_singleton _⟩
      · cases ha
    · rintro h h' (rfl | ⟨a, ha, -⟩) (rfl | ⟨a', ha', -⟩) hne
      · exact absurd rfl hne
      · cases ha'
      · cases ha
      · cases ha
  clients_lt := fun a ha => by cases ha
  devs_lt := fun _ d hd => by cases hd
  no_devs := fun _ _ => rfl
  tids := fun a ha => by cases ha

section
variable (h : Inv R clients devs s)
include h

theorem Inv.fresh {n : Node} (hn : n.object = some s.brk) :
    ∀ m, IsHead clients m → n ∉ m :: elems clients devs m := by
  rintro m (rfl | ⟨a, ha, rfl⟩) hmem
  · rcases mem_cons.1 hmem with rfl | hmem
    · cases hn
    · obtain ⟨a, ha, rfl⟩ := mem_map.1 hmem
      obtain rfl := some.inj hn
      exact absurd (h.clients_lt _ ha) (lt_irrefl _)
  · rcases mem_cons.1 hmem with rfl | hmem
    · obtain rfl := some.inj hn
      exact absurd (h.clients_lt _ ha) (lt_irrefl _)
    · obtain ⟨d, hd, rfl⟩ := mem_map.1 hmem
      obtain rfl := some.inj hn
      exact absurd (h.devs_lt a _ hd) (lt_irrefl _)

theorem Inv.initHead {n : Node} (hn : n.object = some s.brk) (hnil : elems clients devs n = []) :
    Lists (s.links.initHead n) (IsHead clients) (elems clients devs) :=
  (h.lists.initHead (h.fresh hn) hnil).mono fun _ => Or.inr

theorem Inv.createClient {tid : Word} (htid : R tid) :
    Inv R (s.brk :: clients) devs (createClient s tid true).1 where
  lists := by
    have hnil : elems clients devs (.devs s.brk) = [] := by
      rw [elems, h.no_devs s.brk le_rfl, map_nil]
    have hclient := h.initHead (n := .client s.brk) rfl rfl
    have hdevs := hclient.initHead (h.fresh (n := .devs s.brk) rfl) hnil
    have hnew : ∀ m, m = .devs s.brk ∨ IsHead clients m →
        Node.client s.brk ∉ m :: elems clients devs m := by
      rintro m (rfl | hm)
      · simp [hnil]
      · exact h.fresh rfl m hm
    have hadd := hdevs.add (Or.inr (Or.inl rfl)) hnew
    have helems : update (elems clients devs) .server
        (.client s.brk :: elems clients devs .server) = elems (s.brk :: clients) devs := by
      funext n
      cases n <;> rfl
    rw [helems] at hadd
    refine hadd.mono ?_
    rintro n (rfl | ⟨a, ha, rfl⟩)
    · exact Or.inr (Or.inl rfl)
    · rcases mem_cons.1 ha with rfl | ha
      · exact Or.inl rfl
      · exact Or.inr (Or.inr ⟨a, ha, rfl⟩)
  clients_lt := by
    intro a ha
    rcases mem_cons.1 ha with rfl | ha
    · exact Nat.lt_succ_self _
    · exact Nat.lt_succ_of_lt (h.clients_lt a ha)
  devs_lt := fun a d hd => Nat.lt_succ_of_lt (h.devs_lt a d hd)
  no_devs := fun a ha => h.no_devs a (Nat.le_of_succ_le ha)
  tids := by
    intro a ha
    rcases mem_cons.1 ha with rfl | ha
    · simpa [DriverReuse.Pci.createClient] using htid
    · have hne : a ≠ s.brk := (h.clients_lt a ha).ne
      simpa [DriverReuse.Pci.createClient, hne] using h.tids a ha

theorem Inv.addDevice {a : ℕ} (ha : a ∈ clients) (idx : Word) (dev : Option PciDev) (mem : Bool) :
    ∃ devs', Inv R clients devs' (addDevice s a idx dev mem) := by
  cases mem with
  | false => exact ⟨devs, h⟩
  | true =>
    cases dev with
    | none => exact ⟨devs, h.lists, h.clients_lt, h.devs_lt, h.no_devs, h.tids⟩
    | some dev =>
      refine ⟨update devs a (s.brk :: devs a), ?_, ?_, ?_, ?_, h.tids⟩
      · have hinit := h.initHead (n := .dev s.brk) rfl rfl
        have hadd := hinit.add (Or.inr ⟨a, ha, rfl⟩ : IsHead clients (.devs a))
          (h.fresh (n := .dev s.brk) rfl)
        have helems : update (elems clients devs) (.devs a)
            (.dev s.brk :: elems clients devs (.devs a)) =
              elems clients (update devs a (s.brk :: devs a)) := by
          funext n
          cases n with
          | devs b =>
            rcases eq_or_ne b a with rfl | hb
            · simp [elems]
            · grind [elems, update_of_ne, Node.devs.inj]
          | _ => rfl
        rwa [helems] at hadd
      · exact fun b hb => Nat.lt_succ_of_lt (h.clients_lt b hb)
      · intro b d hd
        rcases eq_or_ne b a with rfl | hb
        · rw [update_self] at hd
          rcases mem_cons.1 hd with rfl | hd
          · exact Nat.lt_succ_self _
          · exact Nat.lt_succ_of_lt (h.devs_lt b d hd)
        · rw [update_of_ne hb] at hd
          exact Nat.lt_succ_of_lt (h.devs_lt b d hd)
      · intro b hb
        have hlt : s.brk < b := hb
        have hne : b ≠ a := fun heq => absurd (h.clients_lt a ha) (by omega)
        rw [update_of_ne hne]
        exact h.no_devs b hlt.le

end

theorem Inv.registerLoop {caller : Word} (hR : R caller) (clientMem : Bool)
    (ds : List (Option PciDev × Bool)) :
    ∀ {s : Server} {clients : List ℕ} {devs : ℕ → List ℕ} {client : Option ℕ} (idx : Word),
      Inv R clients devs s → (∀ a, client = some a → a ∈ clients) →
      ∃ clients' devs',
        Inv R clients' devs' (registerLoop caller clientMem s client idx ds).1 := by
  induction ds with
  | nil =>
    intro s clients devs client idx h _
    exact ⟨clients, devs, h⟩
  | cons d ds ih =>
    intro s clients devs client idx h hclient
    -- the turn of the loop once there is a client
    have hturn : ∀ {s : Server} {clients : List ℕ} {devs : ℕ → List ℕ} {a : ℕ},
        Inv R clients devs s → a ∈ clients → ∃ clients' devs', Inv R clients' devs'
          (if (Pci.addDevice s a idx d.1 d.2).oops then (Pci.addDevice s a idx d.1 d.2, none)
            else Pci.registerLoop caller clientMem (Pci.addDevice s a idx d.1 d.2) (some a)
              (idx + 1) ds).1 := by
      intro s clients devs a h ha
      obtain ⟨devs', h'⟩ := h.addDevice ha idx d.1 d.2
      split_ifs
      · exact ⟨clients, devs', h'⟩
      · exact ih (idx + 1) h' fun b hb => some.inj hb ▸ ha
    cases client with
    | some a => exact hturn h (hclient a rfl)
    | none =>
      cases clientMem with
      | false => exact ⟨clients, devs, h⟩
      | true => exact hturn (h.createClient hR) mem_cons_self

structure SameClients (s s' : Server) : Prop where
  links : s'.links = s.links
  tid : s'.tid = s.tid
  brk : s'.brk = s.brk

theorem Inv.same (h : Inv R clients devs s) {s' : Server} (hs : SameClients s s') :
    Inv R clients devs s' := by
  obtain ⟨hlinks, htid, hbrk⟩ := hs
  constructor
  · rw [hlinks]; exact h.lists
  · rw [hbrk]; exact h.clients_lt
  · rw [hbrk]; exact h.devs_lt
  · rw [hbrk]; exact h.no_devs
  · rw [htid]; exact h.tids

theorem sameClients_deregister (s : Server) (tid : Word) :
    SameClients s (deregisterHandler s tid).1 := by
  unfold deregisterHandler
  dsimp only
  split <;> exact ⟨rfl, rfl, rfl⟩

theorem sameClients_read (s : Server) (caller : Word) (p : RwParams) (val ret : Word) :
    SameClients s (readHandler s caller p val ret).1 := by
  unfold readHandler
  dsimp only
  split
  · exact ⟨rfl, rfl, rfl⟩
  · split
    · exact ⟨rfl, rfl, rfl⟩
    · split <;> exact ⟨rfl, rfl, rfl⟩

theorem sameClients_write (s : Server) (caller : Word) (p : RwParams) (ret : Word) :
    SameClients s (writeHandler s caller p ret).1 := by
  unfold writeHandler
  dsimp only
  split
  · exact ⟨rfl, rfl, rfl⟩
  · split
    · exact ⟨rfl, rfl, rfl⟩
    · split
      · split <;> exact ⟨rfl, rfl, rfl⟩
      · exact ⟨rfl, rfl, rfl⟩

def Intact (R : Word → Prop) (s : Server) : Prop := ∃ clients devs, Inv R clients devs s

theorem Intact.same (h : Intact R s) {s' : Server} (hs : SameClients s s') : Intact R s' := by
  obtain ⟨clients, devs, h⟩ := h
  exact ⟨clients, devs, h.same hs⟩

theorem intact_step (h : Intact R s) {c : Command} (hc : ∀ t, c.Registers t → R t) :
    Intact R (step s c) := by
  have h' : Intact R { s with touched := [] } := h.same ⟨rfl, rfl, rfl⟩
  unfold step
  split_ifs
  · exact h'
  · cases c with
    | register caller clientMem ds =>
      obtain ⟨clients, devs, h'⟩ := h'
      exact h'.registerLoop (hc caller rfl) clientMem ds 0 fun a ha => by cases ha
    | deregister caller tid => exact h'.same (sameClients_deregister _ tid)
    | read caller p val ret => exact h'.same (sameClients_read _ caller p val ret)
    | write caller p ret => exact h'.same (sameClients_write _ caller p ret)

theorem intact_run (h : Intact R s) {cs : List Command}
    (hcs : ∀ c ∈ cs, ∀ t, c.Registers t → R t) : Intact R (run step s cs) := by
  have hstep : ∀ s c, (∀ t, c.Registers t → R t) → Intact R s → True → Intact R (step s c) :=
    fun _ _ hc hs _ => intact_step hs hc
  exact run_invariant_of_mem hstep h hcs (guarded_true step s cs)

theorem Inv.lookupClient_eq (h : Inv R clients devs s) (t : Word) :
    (lookupClient s t).2 = clients.find? fun a => s.tid a = t := by
  have hcirc := h.lists.circular .server (Or.inl rfl)
  have hnodup : clients.Nodup := List.Nodup.of_map _ (nodup_cons.1 hcirc.nodup).2
  have hlen : clients.length ≤ s.brk := by
    have hsub := hnodup.subperm fun a ha => mem_range.2 (h.clients_lt a ha)
    simpa using hsub.length_le
  unfold lookupClient
  rw [hcirc.forEach_eq _ (by simpa [elems] using Nat.lt_succ_of_le hlen)]
  have htest : (fun n => n.object.any fun a => s.tid a = t) ∘ Node.client =
      fun a => decide (s.tid a = t) := rfl
  simp only [elems, find?_map]
  rw [htest]
  cases clients.find? fun a => s.tid a = t <;> rfl

theorem Intact.lookupFails {t : Word} (h : Intact (· ≠ t) s) (hfreed : s.freed = []) :
    LookupFails s t := by
  obtain ⟨clients, devs, h⟩ := h
  constructor
  · rw [h.lookupClient_eq t, find?_eq_none]
    intro a ha
    simpa using h.tids a ha
  · simp [hfreed]

theorem Intact.of_lookup {t : Word} (h : Intact R s) (hnone : (lookupClient s t).2 = none) :
    Intact (· ≠ t) s := by
  obtain ⟨clients, devs, h⟩ := h
  rw [h.lookupClient_eq t, find?_eq_none] at hnone
  exact ⟨clients, devs, h.lists, h.clients_lt, h.devs_lt, h.no_devs,
    fun a ha => by simpa using hnone a ha⟩

end Inv
theorem freed_createClient (tid : Word) (mem : Bool) :
    (createClient s tid mem).1.freed = s.freed := by
  cases mem <;> rfl

theorem freed_addDevice (a : ℕ) (idx : Word) (dev : Option PciDev) (mem : Bool) :
    (addDevice s a idx dev mem).freed = s.freed := by
  cases mem <;> cases dev <;> rfl

theorem freed_registerLoop (caller : Word) (clientMem : Bool) (ds : List (Option PciDev × Bool)) :
    ∀ (s : Server) (client : Option ℕ) (idx : Word),
      (registerLoop caller clientMem s client idx ds).1.freed = s.freed := by
  induction ds with
  | nil => exact fun _ _ _ => rfl
  | cons d ds ih =>
    intro s client idx
    unfold registerLoop
    have hcreated : (match client with
        | some a => (s, some a)
        | none => createClient s caller clientMem).1.freed = s.freed := by
      cases client with
      | some a => rfl
      | none => exact freed_createClient s caller clientMem
    dsimp only
    split
    · simp_all
    · grind [freed_addDevice]

theorem freed_step {s : Server} {c : Command} (hm : Misses s c) :
    (step s c).freed = s.freed := by
  unfold step
  split_ifs with hoops
  · rfl
  · cases c with
    | register caller clientMem ds => exact freed_registerLoop ..
    | deregister caller t =>
      have hnone : (lookupClient { s with touched := [] } t).2 = none := hm (by simpa using hoops)
      simp only [handle, deregisterHandler, hnone]
    | read caller p val ret =>
      unfold handle readHandler
      dsimp only
      split
      · rfl
      · split
        · rfl
        · split <;> rfl
    | write caller p ret =>
      unfold handle writeHandler
      dsimp only
      split
      · rfl
      · split
        · rfl
        · split
          · split <;> rfl
          · rfl

theorem freed_run {cs : List Command} (h : Runs.Guarded step Misses init cs) :
    (run step init cs).freed = [] :=
  run_invariant (I := fun s => s.freed = []) (fun _ _ hs hm => (freed_step hm).trans hs) rfl h

theorem lookupClient_deregister (caller t : Word) (hoops : s.oops = false) :
    (lookupClient (step s (.deregister caller t)) t).2 = (lookupClient s t).2 := by
  obtain ⟨hlinks, htid, hbrk⟩ := sameClients_deregister { s with touched := [] } t
  unfold step
  rw [if_neg (by simp [hoops])]
  unfold lookupClient
  simp only [handle, hlinks, htid, hbrk]

/-- **A deregistered thread is not found until it registers again and nothing freed is touched,
exactly when no deregistration finds a client.** -/
theorem safe_iff (cs : List Command) : Safe cs ↔ Runs.Guarded step Misses init cs := by
  constructor
  · intro h
    rw [guarded_iff_forall_split]
    rintro pre c post rfl
    cases c with
    | deregister caller t =>
      intro hoops
      have hgone := (h.gone pre caller t [] post rfl hoops fun c hc => by cases hc).1
      rw [run_append] at hgone
      rwa [← lookupClient_deregister _ caller t hoops]
    | _ => trivial
  · intro h
    constructor
    · rintro pre c post rfl n - a -
      rw [freed_run (guarded_append.1 h).1]
      exact not_mem_nil
    · rintro pre caller t mid post rfl hoops hmid
      have hsplit : pre ++ Command.deregister caller t :: (mid ++ post) =
          (pre ++ .deregister caller t :: mid) ++ post := by simp
      rw [hsplit] at h
      have hguard := (guarded_append.1 h).1
      have hmiss := (guarded_append.1 hguard).2.1 hoops
      have hall : Intact (fun _ => True) (run step init pre) :=
        intact_run ⟨[], fun _ => [], inv_init⟩ fun _ _ _ _ => trivial
      have hnone := hall.of_lookup hmiss
      refine Intact.lookupFails ?_ (freed_run hguard)
      rw [run_append]
      refine intact_run hnone fun c hc u hu => ?_
      rcases mem_cons.1 hc with rfl | hmem
      · exact absurd hu id
      · rintro rfl
        exact hmid c hmem hu

def registerDeregister : List Command :=
  [.register 7 true [(some 0, true)], .deregister 7 7]

theorem not_safe_registerDeregister :
    (lookupClient (run step init registerDeregister) 7).2 = some 0 ∧
    (run step init registerDeregister).freed = [1, 0] ∧
    Node.client 0 ∈ (step (run step init registerDeregister)
      (.read 9 ⟨0, 0, 4, 0, 0⟩ 0 0)).touched ∧
    ¬ Safe registerDeregister := by
  refine ⟨by decide +kernel, by decide +kernel, by decide +kernel, fun h => ?_⟩
  have hgone := (h.gone [.register 7 true [(some 0, true)]] 7 7 [] [] rfl (by decide +kernel)
    fun c hc => by cases hc).1
  revert hgone
  decide +kernel

end DriverReuse.Pci
