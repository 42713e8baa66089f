import Afterburner.Lib.Runs
import Afterburner.Wedge.Intlogic

/-!
# The PCI configuration ports

The guest selects a function through port `0xcf8` and accesses its registers through `0xcfc` to
`0xcff`. The selection is latched in two pointers.
-/

namespace Wedge
open Function BitVec Bool

inductive PciFunction
  | hostBus
  | isaBridge
  | i82371ab
  | vga
  | e1000
  | dp83820
  deriving DecidableEq, Repr

structure PciConfig where
  i82371ab : Bool
  e1000 : Bool
  dp83820 : Bool
  forward : Bool
  deriving DecidableEq

namespace PciAddr

def reg (a : Word) : Word := a >>> 2 &&& 0x3f
def func (a : Word) : Word := a >>> 8 &&& 0x7
def dev (a : Word) : Word := a >>> 11 &&& 0x1f
def bus (a : Word) : Word := a >>> 16 &&& 0xff
def isEnabled (a : Word) : Bool := a.getLsbD 31

end PciAddr

def PciConfig.functionAt (cfg : PciConfig) (a : Word) : Option PciFunction :=
  if PciAddr.bus a ≠ 0 then none
  else if PciAddr.dev a = 0 then some .hostBus
  else if PciAddr.dev a = 1 then
    if PciAddr.func a = 0 then some .isaBridge
    else if cfg.i82371ab = true ∧ PciAddr.func a = 1 then some .i82371ab
    else none
  else if PciAddr.dev a = 2 then some .vga
  else if cfg.e1000 = true ∧ PciAddr.dev a = 3 then some .e1000
  else if cfg.dp83820 = true ∧ PciAddr.dev a = 4 then some .dp83820
  else none

inductive PortWidth
  | byte
  | word
  | dword
  deriving DecidableEq, Repr

def PortWidth.bits : PortWidth → ℕ
  | .byte => 8
  | .word => 16
  | .dword => 32

def PortWidth.readMask (w : PortWidth) : Word :=
  if w.bits < 32 then (1#32 <<< w.bits) - 1 else ~~~ 0

def PortWidth.writeMask (w : PortWidth) (offset : ℕ) : Word :=
  if w.bits < 32 then ((1#32 <<< w.bits) - 1) <<< offset else ~~~ 0

structure PciStorage where
  header : ℕ → Word
  baseAddrRequests : ℕ → Word
  device : ℕ → Word

namespace PciStorage
variable (s : PciStorage)

def headerRead (base offset : ℕ) (w : PortWidth) : Word :=
  w.readMask &&& s.header base >>> offset

def merge (old value : Word) (offset : ℕ) (w : PortWidth) : Word :=
  (old &&& ~~~ w.writeMask offset) ||| (value <<< offset &&& w.writeMask offset)

def headerWrite (base offset : ℕ) (w : PortWidth) (value : Word) : PciStorage :=
  if base = 12 then s
  else { s with header := update s.header base (merge (s.header base) value offset w) }

def isBaseAddrReg (base : ℕ) : Bool := 4 ≤ base ∧ base < 4 + 6

def setBaseAddrRequest (base : ℕ) : PciStorage :=
  { s with header := update s.header base (s.baseAddrRequests (base - 4)) }

def deviceRead (base offset : ℕ) (w : PortWidth) : Word :=
  if base < 48 then w.readMask &&& s.device base >>> offset else ~~~ 0

def deviceWrite (base offset : ℕ) (w : PortWidth) (value : Word) : PciStorage :=
  if base < 48 then
    { s with device := update s.device base (merge (s.device base) value offset w) }
  else s

end PciStorage

structure Pci where
  configAddr : Word
  configHeader : Option PciFunction
  configDevice : Option PciFunction
  store : PciFunction → PciStorage

inductive PciRead
  | unchanged
  | forwarded
  | value (v : Word)
  deriving DecidableEq, Repr

namespace Pci

def init (store : PciFunction → PciStorage) : Pci := ⟨0, none, none, store⟩
def deviceBase (a : Word) : ℕ := (PciAddr.reg a - 16).toNat

def addressWrite (cfg : PciConfig) (s : Pci) (value : Word) : Pci :=
  let s := { s with configHeader := none, configAddr := value }
  if PciAddr.bus value ≠ 0 then s
  else if PciAddr.dev value = 0 then { s with configHeader := some .hostBus }
  else if PciAddr.dev value = 1 then
    let s := if PciAddr.func value = 0 then { s with configHeader := some .isaBridge } else s
    if cfg.i82371ab = true ∧ PciAddr.func value = 1 then
      { s with configHeader := some .i82371ab, configDevice := some .i82371ab }
    else s
  else if PciAddr.dev value = 2 then { s with configHeader := some .vga, configDevice := none }
  else if cfg.e1000 = true ∧ PciAddr.dev value = 3 then
    { s with configHeader := some .e1000, configDevice := none }
  else if cfg.dp83820 = true ∧ PciAddr.dev value = 4 then
    { s with configHeader := some .dp83820, configDevice := none }
  else s

def isForwarded (cfg : PciConfig) (a : Word) : Bool :=
  cfg.forward && decide (PciAddr.bus a = 0 ∧ PciAddr.dev a = 3 ∧ PciAddr.func a = 0)

def dataRead (cfg : PciConfig) (s : Pci) (offset : ℕ) (w : PortWidth) : PciRead :=
  if isForwarded cfg s.configAddr then .forwarded
  else if PciAddr.isEnabled s.configAddr = false then .unchanged
  else
    match s.configHeader, s.configDevice, decide (PciAddr.reg s.configAddr < 16) with
    | some f, _, true => .value ((s.store f).headerRead (PciAddr.reg s.configAddr).toNat offset w)
    | _, some f, _ => .value ((s.store f).deviceRead (deviceBase s.configAddr) offset w)
    | _, none, _ => .unchanged

def setStorage (s : Pci) (f : PciFunction) (x : PciStorage) : Pci :=
  { s with store := update s.store f x }

def dataWrite (cfg : PciConfig) (s : Pci) (offset : ℕ) (w : PortWidth) (value : Word) : Pci :=
  if isForwarded cfg s.configAddr then s
  else if PciAddr.isEnabled s.configAddr = false then s
  else
    match s.configHeader with
    | none => s
    | some f =>
      let reg := (PciAddr.reg s.configAddr).toNat
      if PciStorage.isBaseAddrReg reg = true ∧ value = ~~~ 0 then
        s.setStorage f ((s.store f).setBaseAddrRequest reg)
      else if PciAddr.reg s.configAddr < 16 then
        s.setStorage f ((s.store f).headerWrite reg offset w value)
      else
        match s.configDevice with
        | none => s
        | some g =>
          s.setStorage g ((s.store g).deviceWrite (deviceBase s.configAddr) offset w value)

inductive Op
  | addressRead
  | addressWrite (value : Word)
  | dataRead (n : Fin 4) (w : PortWidth)
  | dataWrite (n : Fin 4) (w : PortWidth) (value : Word)

def step (cfg : PciConfig) (s : Pci) : Op → Pci
  | .addressRead => s
  | .addressWrite value => s.addressWrite cfg value
  | .dataRead _ _ => s
  | .dataWrite n w value => s.dataWrite cfg (8 * n) w value

def withStore (s : Pci) (store : PciFunction → PciStorage) : Pci := { s with store := store }

def Isolated (cfg : PciConfig) (s : Pci) : Op → Prop
  | .addressRead => True
  | .addressWrite _ => True
  | .dataRead n w => ∀ store store' : PciFunction → PciStorage,
      (∀ f, cfg.functionAt s.configAddr = some f → store f = store' f) →
      (s.withStore store).dataRead cfg (8 * n) w = (s.withStore store').dataRead cfg (8 * n) w
  | .dataWrite n w value => ∀ (store : PciFunction → PciStorage) (f : PciFunction),
      cfg.functionAt s.configAddr ≠ some f →
      ((s.withStore store).dataWrite cfg (8 * n) w value).store f = store f

def Emulated (cfg : PciConfig) (a : Word) : Prop :=
  isForwarded cfg a = false ∧ PciAddr.isEnabled a = true

def Stale (cfg : PciConfig) (s : Pci) : Prop :=
  Emulated cfg s.configAddr ∧ ¬ PciAddr.reg s.configAddr < 16 ∧
    ∃ g, s.configDevice = some g ∧ cfg.functionAt s.configAddr ≠ some g

def Fresh (cfg : PciConfig) (s : Pci) : Op → Prop
  | .addressRead => True
  | .addressWrite _ => True
  | .dataRead _ _ => ¬ s.Stale cfg
  | .dataWrite _ _ _ => ¬ (s.Stale cfg ∧ cfg.functionAt s.configAddr ≠ none)

def Selected (cfg : PciConfig) (s : Pci) : Prop :=
  PciAddr.isEnabled s.configAddr = true → s.configHeader = cfg.functionAt s.configAddr

variable (cfg : PciConfig)

theorem configAddr_addressWrite (s : Pci) (value : Word) :
    (s.addressWrite cfg value).configAddr = value := by
  unfold addressWrite
  split_ifs <;> rfl

theorem configHeader_addressWrite (s : Pci) (value : Word) :
    (s.addressWrite cfg value).configHeader = cfg.functionAt value := by
  unfold addressWrite PciConfig.functionAt
  -- the ISA bridge sits at function 0 and the disk controller at function 1 of device 1
  split_ifs <;> first | rfl | (exfalso; grind)

theorem selected_init (store : PciFunction → PciStorage) :
    (init store).Selected cfg := fun h => by simp [init, PciAddr.isEnabled] at h

section Accesses
variable {cfg : PciConfig} {s : Pci} {f : PciFunction} (offset : ℕ) (w : PortWidth) (value : Word)

theorem isBaseAddrReg_lt {base : ℕ} (h : PciStorage.isBaseAddrReg base = true) : base < 16 := by
  have hb : 4 ≤ base ∧ base < 4 + 6 := of_decide_eq_true h
  omega

theorem not_emulated {a : Word} (he : ¬ Emulated cfg a) :
    isForwarded cfg a = true ∨ isForwarded cfg a = false ∧ PciAddr.isEnabled a = false := by
  unfold Emulated at he
  grind

theorem dataRead_of_not_emulated (he : ¬ Emulated cfg s.configAddr)
    (store store' : PciFunction → PciStorage) :
    (s.withStore store).dataRead cfg offset w = (s.withStore store').dataRead cfg offset w := by
  grind [dataRead, withStore, not_emulated, reduceIte, false_eq_true]

theorem dataRead_header (he : Emulated cfg s.configAddr) (hr : PciAddr.reg s.configAddr < 16)
    (hh : s.configHeader = some f) :
    s.dataRead cfg offset w =
      .value ((s.store f).headerRead (PciAddr.reg s.configAddr).toNat offset w) := by
  unfold dataRead
  simp only [he.1, he.2, hh, hr, decide_true, false_eq_true, reduceIte, reduceCtorEq]

theorem dataRead_empty (he : Emulated cfg s.configAddr) (hr : PciAddr.reg s.configAddr < 16)
    (hh : s.configHeader = none) :
    s.dataRead cfg offset w =
      match s.configDevice with
      | some _ => .value (~~~ 0)
      | none => .unchanged := by
  have hb : ¬ deviceBase s.configAddr < 48 := by unfold deviceBase; bv_omega
  unfold dataRead
  cases hd : s.configDevice <;>
    simp only [he.1, he.2, hh, PciStorage.deviceRead, hb, false_eq_true, reduceIte,
      reduceCtorEq]

theorem dataRead_device (he : Emulated cfg s.configAddr) (hr : ¬ PciAddr.reg s.configAddr < 16) :
    s.dataRead cfg offset w =
      match s.configDevice with
      | some g => .value ((s.store g).deviceRead (deviceBase s.configAddr) offset w)
      | none => .unchanged := by
  unfold dataRead
  cases hh : s.configHeader <;> cases hd : s.configDevice <;>
    simp only [he.1, he.2, hr, decide_false, false_eq_true, reduceIte, reduceCtorEq]

theorem dataWrite_of_not_emulated (he : ¬ Emulated cfg s.configAddr) :
    s.dataWrite cfg offset w value = s := by
  grind [dataWrite, not_emulated, reduceIte, false_eq_true]

theorem dataWrite_empty (hh : s.configHeader = none) : s.dataWrite cfg offset w value = s := by
  simp [hh, dataWrite]

theorem dataWrite_header (he : Emulated cfg s.configAddr) (hr : PciAddr.reg s.configAddr < 16)
    (hh : s.configHeader = some f) : ∃ x, s.dataWrite cfg offset w value = s.setStorage f x := by
  unfold dataWrite
  rw [hh]
  simp only [he.1, he.2, false_eq_true, reduceIte, hr, reduceCtorEq]
  split_ifs
  · exact ⟨_, rfl⟩
  · exact ⟨_, rfl⟩

theorem dataWrite_device (he : Emulated cfg s.configAddr) (hr : ¬ PciAddr.reg s.configAddr < 16)
    (hh : s.configHeader = some f) :
    s.dataWrite cfg offset w value =
      match s.configDevice with
      | some g =>
        s.setStorage g ((s.store g).deviceWrite (deviceBase s.configAddr) offset w value)
      | none => s := by
  have hb : ¬ (PciStorage.isBaseAddrReg (PciAddr.reg s.configAddr).toNat = true ∧
      value = ~~~ 0) := by
    rintro ⟨h, -⟩
    have := isBaseAddrReg_lt h
    exact hr (by bv_omega)
  unfold dataWrite
  rw [hh]
  dsimp only
  rw [if_neg hb]
  simp only [he.1, he.2, hr, false_eq_true, reduceIte, reduceCtorEq]
  cases hd : s.configDevice <;> rfl

variable (cfg s) in
theorem dataWrite_cases : s.dataWrite cfg offset w value = s ∨
    ∃ g x, s.dataWrite cfg offset w value = s.setStorage g x := by
  by_cases he : Emulated cfg s.configAddr
  · cases hh : s.configHeader with
    | none => exact Or.inl (dataWrite_empty offset w value hh)
    | some f =>
      by_cases hr : PciAddr.reg s.configAddr < 16
      · exact Or.inr ⟨f, dataWrite_header offset w value he hr hh⟩
      · rw [dataWrite_device offset w value he hr hh]
        cases s.configDevice with
        | none => exact Or.inl rfl
        | some g => exact Or.inr ⟨g, _, rfl⟩
  · exact Or.inl (dataWrite_of_not_emulated offset w value he)

end Accesses

theorem Selected.step {cfg : PciConfig} {s : Pci} (h : s.Selected cfg) (op : Op) :
    (s.step cfg op).Selected cfg := by
  cases op with
  | addressRead => exact h
  | addressWrite value =>
    intro _
    unfold Pci.step
    rw [configHeader_addressWrite, configAddr_addressWrite]
  | dataRead n w => exact h
  | dataWrite n w value =>
    unfold Pci.step
    dsimp only
    rcases dataWrite_cases cfg s (8 * n) w value with hs | ⟨g, x, hs⟩
    · rw [hs]
      exact h
    · rw [hs]
      exact h

def contents (g : PciFunction) (v : Word) : PciFunction → PciStorage :=
  update (fun _ => ⟨fun _ => 0, fun _ => 0, fun _ => 0⟩) g
    ⟨fun _ => v, fun _ => v, fun _ => v⟩

theorem contents_self (g : PciFunction) (v : Word) :
    contents g v g = ⟨fun _ => v, fun _ => v, fun _ => v⟩ := by
  unfold contents
  rw [update_self]

theorem contents_of_ne {f g : PciFunction} (h : f ≠ g) (v v' : Word) :
    contents g v f = contents g v' f := by simp_all [update_of_ne, contents]

theorem deviceBase_lt {a : Word} (hr : ¬ PciAddr.reg a < 16) : deviceBase a < 48 := by
  have h : (PciAddr.reg a).toNat ≤ 63 := by
    exact Nat.and_le_right
  unfold deviceBase
  bv_omega

theorem readMask_ne (n : Fin 4) (w : PortWidth) :
    w.readMask &&& (~~~ 0 : Word) >>> (8 * n.val) ≠ w.readMask &&& (0 : Word) >>> (8 * n.val) := by
  fin_cases n <;> cases w <;> decide

theorem writeMask_ne_zero (n : Fin 4) (w : PortWidth) : w.writeMask (8 * n) ≠ 0 := by
  fin_cases n <;> cases w <;> decide

theorem merge_ne (value : Word) (n : Fin 4) (w : PortWidth) :
    PciStorage.merge (~~~ (value <<< (8 * n.val))) value (8 * n) w ≠
      ~~~ (value <<< (8 * n.val)) := by
  intro h
  refine writeMask_ne_zero n w (eq_of_getLsbD_eq fun i hi => ?_)
  unfold PciStorage.merge at h
  generalize value <<< (8 * n.val) = x at h
  have hbit := congrArg (fun y : Word => y.getLsbD i) h
  simp only [getLsbD_or, getLsbD_and, getLsbD_not, hi, decide_true,
    Bool.true_and] at hbit
  cases hm : (w.writeMask (8 * n)).getLsbD i with
  | false => simp
  | true => simp [hm] at hbit

section Access
variable {cfg : PciConfig} {s : Pci} (n : Fin 4) (w : PortWidth) (value : Word)

theorem isolated_dataRead_of_fresh (hs : s.Selected cfg) (h : ¬ s.Stale cfg) :
    s.Isolated cfg (.dataRead n w) := by
  intro store store' hagree
  by_cases he : Emulated cfg s.configAddr
  · by_cases hr : PciAddr.reg s.configAddr < 16
    · cases hh : s.configHeader with
      | none =>
        rw [dataRead_empty (8 * n.val) w (s := s.withStore store) he hr hh,
          dataRead_empty (8 * n.val) w (s := s.withStore store') he hr hh]
        rfl
      | some f =>
        rw [dataRead_header (8 * n.val) w (s := s.withStore store) he hr hh,
          dataRead_header (8 * n.val) w (s := s.withStore store') he hr hh]
        have hf : store f = store' f := hagree f ((hs he.2).symm.trans hh)
        unfold withStore
        dsimp only
        rw [hf]
    · rw [dataRead_device (8 * n.val) w (s := s.withStore store) he hr,
        dataRead_device (8 * n.val) w (s := s.withStore store') he hr]
      cases hd : s.configDevice with
      | none => simp [hd, withStore]
      | some g =>
        have hg : cfg.functionAt s.configAddr = some g := by
          by_contra hne
          exact h ⟨he, hr, g, hd, hne⟩
        unfold withStore
        rw [hd]
        dsimp only
        rw [hagree g hg]
  · exact dataRead_of_not_emulated (8 * n.val) w he store store'

theorem fresh_of_isolated_dataRead (h : s.Isolated cfg (.dataRead n w)) : ¬ s.Stale cfg := by
  rintro ⟨he, hr, g, hd, hne⟩
  have hread := h (contents g (~~~ 0)) (contents g 0) fun f hf =>
    contents_of_ne (fun hfg => hne (by rw [hf, hfg])) _ _
  rw [dataRead_device (8 * n.val) w (s := s.withStore (contents g (~~~ 0))) he hr,
    dataRead_device (8 * n.val) w (s := s.withStore (contents g 0)) he hr] at hread
  unfold withStore at hread
  rw [hd] at hread
  dsimp only at hread
  rw [contents_self, contents_self] at hread
  unfold PciStorage.deviceRead at hread
  rw [if_pos (deviceBase_lt hr), if_pos (deviceBase_lt hr)] at hread
  exact readMask_ne n w (PciRead.value.inj hread)

theorem isolated_dataWrite_of_fresh (hs : s.Selected cfg)
    (h : ¬ (s.Stale cfg ∧ cfg.functionAt s.configAddr ≠ none)) :
    s.Isolated cfg (.dataWrite n w value) := by
  intro store f hf
  by_cases he : Emulated cfg s.configAddr
  · cases hh : s.configHeader with
    | none => rw [dataWrite_empty (8 * n.val) w value (s := s.withStore store) hh]; rfl
    | some f' =>
      have hat : cfg.functionAt s.configAddr = some f' := (hs he.2).symm.trans hh
      by_cases hr : PciAddr.reg s.configAddr < 16
      · obtain ⟨x, hx⟩ := dataWrite_header (8 * n.val) w value (s := s.withStore store) he hr hh
        rw [hx]
        have hff : f ≠ f' := fun hff => hf (by rw [hat, hff])
        exact update_of_ne hff x store
      · rw [dataWrite_device (8 * n.val) w value (s := s.withStore store) he hr hh]
        cases hd : s.configDevice with
        | none => simp [hd, withStore]
        | some g =>
          have hg : cfg.functionAt s.configAddr = some g := by
            by_contra hne
            exact h ⟨⟨he, hr, g, hd, hne⟩, hat ▸ Option.some_ne_none f'⟩
          unfold withStore
          rw [hd]
          have hfg : f ≠ g := fun hfg => hf (by rw [hg, hfg])
          exact update_of_ne hfg _ store
  · rw [dataWrite_of_not_emulated (8 * n.val) w value (s := s.withStore store) he]
    rfl

theorem fresh_of_isolated_dataWrite (hs : s.Selected cfg)
    (h : s.Isolated cfg (.dataWrite n w value)) :
    ¬ (s.Stale cfg ∧ cfg.functionAt s.configAddr ≠ none) := by
  rintro ⟨⟨he, hr, g, hd, hne⟩, hsome⟩
  obtain ⟨f, hf⟩ := Option.ne_none_iff_exists'.mp hsome
  have hh : s.configHeader = some f := (hs he.2).trans hf
  obtain ⟨store, hstore⟩ : ∃ store, store = contents g (~~~ (value <<< (8 * n.val))) := ⟨_, rfl⟩
  have hwrite := h store g hne
  rw [dataWrite_device (8 * n.val) w value (s := s.withStore store) he hr hh] at hwrite
  unfold withStore setStorage at hwrite
  rw [hd] at hwrite
  dsimp only at hwrite
  rw [update_self, hstore, contents_self] at hwrite
  unfold PciStorage.deviceWrite at hwrite
  rw [if_pos (deviceBase_lt hr)] at hwrite
  have hreg := congrFun (congrArg PciStorage.device hwrite) (deviceBase s.configAddr)
  dsimp only at hreg
  rw [update_self] at hreg
  exact merge_ne value n w hreg

end Access

theorem isolated_iff_fresh {cfg : PciConfig} {s : Pci} (hs : s.Selected cfg) (op : Op) :
    s.Isolated cfg op ↔ s.Fresh cfg op := by
  cases op with
  | addressRead => exact Iff.rfl
  | addressWrite value => exact Iff.rfl
  | dataRead n w => exact ⟨fresh_of_isolated_dataRead n w, isolated_dataRead_of_fresh n w hs⟩
  | dataWrite n w value =>
    exact ⟨fresh_of_isolated_dataWrite n w value hs, isolated_dataWrite_of_fresh n w value hs⟩

/-- **Isolation.** From start-up on, every access of a run is confined to the function its address
names exactly when none finds the selection stale. -/
theorem isolated_iff_guarded (cfg : PciConfig) (store : PciFunction → PciStorage) (ops : List Op) :
    Runs.Guarded (step cfg) (Isolated cfg) (init store) ops ↔
      Runs.Guarded (step cfg) (Fresh cfg) (init store) ops :=
  Runs.guarded_congr (I := Selected cfg) (A := fun _ => True) (fun _ op _ h _ => h.step op)
    (fun _ op _ h => isolated_iff_fresh h op) (selected_init cfg store) fun _ _ => trivial

theorem not_isolated_after_i82371ab :
    ¬ Runs.Guarded (step ⟨true, false, false, false⟩) (Isolated ⟨true, false, false, false⟩)
      (init fun _ => ⟨fun _ => 0, fun _ => 0, fun _ => 0⟩)
      [.addressWrite 0x80000900, .addressWrite 0x80000040, .dataWrite 0 .dword 1] := by
  intro h
  have hwrite := h.2.2.1 (fun _ => ⟨fun _ => 0, fun _ => 0, fun _ => 0⟩) .i82371ab (by decide)
  have hreg := congrFun (congrArg PciStorage.device hwrite) 0
  revert hreg
  decide

end Pci
end Wedge
