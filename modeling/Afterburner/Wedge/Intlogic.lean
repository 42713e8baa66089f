import Afterburner.Lib.Bits

/-!
# The summary word of a CPU and the hardware interrupt sets

* `Cpu`: the tail of `cpu_t` from `irq_vectors` on, a bit for each group of eight vectors. A group
  number of 32 or more reaches the pointer `lapic` behind it.
* `Hwirq`: the head of `intlogic_t`, its four words in order.
-/

namespace Wedge

abbrev Word := BitVec 32
abbrev Byte := BitVec 8
def maxHwirqs : ℕ := 256

structure Cpu where
  tail : Bits.Str 32

namespace Cpu
variable (c : Cpu)

def irqVectors : Word := c.tail 0
def lapic : Word := c.tail 1
def setIrqVector (vector : ℕ) : Cpu := ⟨c.tail.bts (vector / 8)⟩
def clearIrqVector (vector : ℕ) : Cpu := ⟨c.tail.btr (vector / 8)⟩
def boot : Cpu := ⟨fun _ => 0⟩

variable {vector : ℕ}

theorem irqVectors_setIrqVector (h : vector < 256) :
    (c.setIrqVector vector).irqVectors = Bits.insert c.irqVectors (vector / 8) :=
  Bits.Str.bts_zero _ (by omega)

theorem irqVectors_clearIrqVector (h : vector < 256) :
    (c.clearIrqVector vector).irqVectors = Bits.erase c.irqVectors (vector / 8) :=
  Bits.Str.btr_zero _ (by omega)

theorem setIrqVector_of_getLsbD {c : Cpu} (h : c.irqVectors.getLsbD (vector / 8) = true) :
    c.setIrqVector vector = c := by
  have hlt : vector / 8 < 32 := Bits.lt_of_getLsbD h
  rw [setIrqVector, Bits.Str.bts_of_bt ((Bits.Str.bt_eq_getLsbD _ hlt).trans h)]

end Cpu

structure Hwirq where
  words : Bits.Str 32

namespace Hwirq

def latch (h : Hwirq) : Word := h.words 0
def mask (h : Hwirq) : Word := h.words 1
def squash (h : Hwirq) : Word := h.words 2
def setHwirqLatch (h : Hwirq) (hwirq : ℕ) : Hwirq := ⟨h.words.bts hwirq⟩
def testHwirqLatch (h : Hwirq) (hwirq : ℕ) : Bool := h.words.bt hwirq
def setHwirqMask (h : Hwirq) (hwirq : ℕ) : Hwirq := ⟨h.words.bts (32 + hwirq)⟩
def clearHwirqMask (h : Hwirq) (hwirq : ℕ) : Hwirq := ⟨h.words.btr (32 + hwirq)⟩
def testHwirqMask (h : Hwirq) (hwirq : ℕ) : Bool := h.words.bt (32 + hwirq)
def isHwirqSquashed (h : Hwirq) (hwirq : ℕ) : Bool := h.squash.getLsbD (hwirq % 32)

end Hwirq

inductive BackendCall
  | enable (hwirq : ℕ)
  | unmask (hwirq : ℕ)
  | enableOn (hwirq vcpu : ℕ)
  | disableOn (hwirq vcpu : ℕ)
  deriving DecidableEq, Repr

end Wedge
