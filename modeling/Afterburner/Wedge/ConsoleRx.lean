import Afterburner.Lib.Runs
import Mathlib.Data.BitVec

/-!
# Console input

`add_console_rx` puts typed bytes into a shared buffer, and `resourcemon_check_console_rx` passes
them to the receive register of a serial port.
-/

namespace ConsoleRx
open List Runs

abbrev Byte := BitVec 8
abbrev Word := BitVec 32
def maxLen : Word := 128

inductive Producer
  | idle
  | started (byte : Byte)
  | checked (byte : Byte)
  | loaded (byte : Byte) (len : Word)
  | incremented (byte : Byte)
  | indexed (byte : Byte) (len : Word)
  deriving DecidableEq

inductive Consumer
  | idle
  | started
  | nonempty
  | indexed (len : Word)
  | calling (byte : Byte)
  | storing (byte : Byte)
  | marking
  | returned
  | loaded (len : Word)
  deriving DecidableEq

structure State where
  raw : ℕ → Byte
  len : Word
  recvBuffer : Byte
  dataReady : Bool
  producer : Producer
  consumer : Consumer
  /-- the guest has read the register, and `data_ready` is still to be cleared -/
  guestReading : Bool
  accepted : List Byte
  received : List Byte
  accesses : List ℕ

variable (s : State)

def State.empty : State := ⟨fun _ => 0, 0, 0, false, .idle, .idle, false, [], [], []⟩

namespace State
def loadRaw (i : Word) : Byte :=
  if 128 ≤ i.toNat ∧ i.toNat < 132 then s.len.extractLsb' (8 * (i.toNat - 128)) 8 else s.raw i.toNat

def storeRaw (i : Word) (b : Byte) : State :=
  if 128 ≤ i.toNat ∧ i.toNat < 132 then
    let shift := 8 * (i.toNat - 128)
    { s with len := s.len &&& ~~~ ((0xff : Word) <<< shift) ||| b.setWidth 32 <<< shift }
  else { s with raw := Function.update s.raw i.toNat b }

def stepProducer : State :=
  match s.producer with
  | .idle => s
  | .started b =>
    if s.len ≥ maxLen then { s with producer := .idle }
    else { s with producer := .checked b, accepted := s.accepted ++ [b] }
  | .checked b => { s with producer := .loaded b s.len }
  | .loaded b n => { s with producer := .incremented b, len := n + 1 }
  | .incremented b => { s with producer := .indexed b s.len }
  | .indexed b i => { s.storeRaw i b with producer := .idle, accesses := s.accesses ++ [i.toNat] }

def stepConsumer : State :=
  match s.consumer with
  | .idle => s
  | .started => { s with consumer := if s.len = 0 then .idle else .nonempty }
  | .nonempty => { s with consumer := .indexed s.len }
  | .indexed i => { s with consumer := .calling (s.loadRaw i), accesses := s.accesses ++ [i.toNat] }
  | .calling b => { s with consumer := if s.dataReady then .returned else .storing b }
  | .storing b => { s with consumer := .marking, recvBuffer := b }
  | .marking => { s with consumer := .returned, dataReady := true }
  | .returned => { s with consumer := .loaded s.len }
  | .loaded n => { s with consumer := .idle, len := n - 1 }

def stepGuest : State :=
  if s.guestReading then { s with guestReading := false, dataReady := false }
  else { s with guestReading := true, received := s.received ++ [s.recvBuffer] }

end State

inductive Action
  | typed (byte : Byte)
  | check
  | producer
  | consumer
  | guest
  deriving DecidableEq

def step : Action → State
  | .typed b => if s.producer = .idle then { s with producer := .started b } else s
  | .check => if s.consumer = .idle then { s with consumer := .started } else s
  | .producer => s.stepProducer
  | .consumer => s.stepConsumer
  | .guest => s.stepGuest

def Ok : Action → Prop
  | .typed _ => s.len = 0 ∧ s.consumer = .idle
  | .check => s.producer = .idle ∧ (s.len = 0 ∨ s.dataReady = false)
  | .guest => s.dataReady = true
  | _ => True

instance decidableOk : (a : Action) → Decidable (Ok s a)
  | .typed _ => inferInstanceAs (Decidable (_ ∧ _))
  | .check => inferInstanceAs (Decidable (_ ∧ (_ ∨ _)))
  | .guest => inferInstanceAs (Decidable (_ = true))
  | .producer => .isTrue trivial
  | .consumer => .isTrue trivial

inductive Shape (raw recv : Byte) : Producer → Consumer → Word → Bool → List Byte → Prop
  | empty (ready : Bool) : Shape raw recv .idle .idle 0 ready []
  | full (ready : Bool) : Shape raw recv .idle .idle 1 ready [raw]
  | typed (b : Byte) (ready : Bool) : Shape raw recv (.started b) .idle 0 ready []
  | accepted (b : Byte) (ready : Bool) : Shape raw recv (.checked b) .idle 0 ready [b]
  | loaded (b : Byte) (ready : Bool) : Shape raw recv (.loaded b 0) .idle 0 ready [b]
  | incremented (b : Byte) (ready : Bool) : Shape raw recv (.incremented b) .idle 1 ready [b]
  | indexed (b : Byte) (ready : Bool) : Shape raw recv (.indexed b 1) .idle 1 ready [b]
  | checkEmpty (ready : Bool) : Shape raw recv .idle .started 0 ready []
  | checkFull : Shape raw recv .idle .started 1 false [raw]
  | nonempty : Shape raw recv .idle .nonempty 1 false [raw]
  | taking : Shape raw recv .idle (.indexed 1) 1 false [raw]
  | calling : Shape raw recv .idle (.calling raw) 1 false [raw]
  | storing : Shape raw recv .idle (.storing raw) 1 false [raw]
  | marking (h : recv = raw) : Shape raw recv .idle .marking 1 false [raw]
  | returned (ready : Bool) : Shape raw recv .idle .returned 1 ready []
  | decrement (ready : Bool) : Shape raw recv .idle (.loaded 1) 1 ready []

def State.register : List Byte :=
  if s.dataReady && !s.guestReading then [s.recvBuffer] else []

structure Inv : Prop where
  shape : ∃ buffer, Shape (s.raw 1) s.recvBuffer s.producer s.consumer s.len s.dataReady buffer ∧
    s.accepted = s.received ++ s.register ++ buffer
  reading : s.guestReading = true → s.dataReady = true
  bounds : ∀ i ∈ s.accesses, i < 128

theorem inv_empty : Inv State.empty :=
  ⟨⟨[], .empty false, rfl⟩, fun h => (nomatch h), forall_mem_nil _⟩

section Step
variable {s}

theorem Inv.of_register (h : Inv s) {s' : State} {buffer : List Byte}
    (hregister : s'.dataReady = s.dataReady ∧ s'.guestReading = s.guestReading ∧
      s'.register = s.register ∧ s'.received = s.received)
    (hshape : Shape (s'.raw 1) s'.recvBuffer s'.producer s'.consumer s'.len s'.dataReady buffer)
    (haccepted : s'.accepted = s.received ++ s.register ++ buffer)
    (hbounds : ∀ i ∈ s'.accesses, i < 128) : Inv s' where
  shape := ⟨buffer, hshape, by rw [haccepted, hregister.2.2.1, hregister.2.2.2]⟩
  reading := by rw [hregister.1, hregister.2.1]; exact h.reading
  bounds := hbounds

theorem inv_stepProducer (h : Inv s) : Inv s.stepProducer := by
  obtain ⟨buffer, hshape, haccepted⟩ := h.shape
  obtain ⟨raw, len, recvBuffer, dataReady, producer, consumer, guestReading, accepted, received,
    accesses⟩ := s
  have hbounds := h.bounds
  simp only at hshape haccepted hbounds
  cases hshape with
  | typed b =>
    refine h.of_register ⟨rfl, rfl, rfl, rfl⟩ (.accepted b _) ?_ hbounds
    rw [append_nil] at haccepted
    exact congrArg (· ++ [b]) haccepted
  | accepted b =>
    exact h.of_register ⟨rfl, rfl, rfl, rfl⟩ (.loaded b _) haccepted hbounds
  | loaded b =>
    exact h.of_register ⟨rfl, rfl, rfl, rfl⟩ (.incremented b _) haccepted hbounds
  | incremented b =>
    exact h.of_register ⟨rfl, rfl, rfl, rfl⟩ (.indexed b _) haccepted hbounds
  | indexed b =>
    refine h.of_register ⟨rfl, rfl, rfl, rfl⟩ (.full _) ?_ ?_
    · exact haccepted
    · exact forall_mem_append.2 ⟨hbounds, forall_mem_singleton.2 (by decide)⟩
  | _ => exact h

theorem inv_stepConsumer (h : Inv s) : Inv s.stepConsumer := by
  obtain ⟨buffer, hshape, haccepted⟩ := h.shape
  obtain ⟨raw, len, recvBuffer, dataReady, producer, consumer, guestReading, accepted, received,
    accesses⟩ := s
  have hbounds := h.bounds
  have hreading := h.reading
  simp only at hshape haccepted hbounds hreading
  cases hshape with
  | checkEmpty =>
    exact h.of_register ⟨rfl, rfl, rfl, rfl⟩ (.empty _) haccepted hbounds
  | checkFull => exact h.of_register ⟨rfl, rfl, rfl, rfl⟩ .nonempty haccepted hbounds
  | nonempty => exact h.of_register ⟨rfl, rfl, rfl, rfl⟩ .taking haccepted hbounds
  | taking =>
    refine h.of_register ⟨rfl, rfl, rfl, rfl⟩ .calling haccepted ?_
    exact forall_mem_append.2 ⟨hbounds, forall_mem_singleton.2 (by decide)⟩
  | calling => exact h.of_register ⟨rfl, rfl, rfl, rfl⟩ .storing haccepted hbounds
  | storing => exact h.of_register ⟨rfl, rfl, rfl, rfl⟩ (.marking rfl) haccepted hbounds
  | marking heq =>
    -- the byte goes from the buffer to the register
    have hidle : guestReading = false := by
      cases guestReading with
      | false => rfl
      | true => exact (hreading rfl).symm
    subst hidle heq
    refine ⟨⟨[], .returned true, haccepted.trans ?_⟩, fun _ => rfl, hbounds⟩
    simp [State.register, State.stepConsumer]
  | returned => exact h.of_register ⟨rfl, rfl, rfl, rfl⟩ (.decrement _) haccepted hbounds
  | decrement => exact h.of_register ⟨rfl, rfl, rfl, rfl⟩ (.empty _) haccepted hbounds
  | _ => exact h

theorem inv_stepGuest (h : Inv s) (hready : s.dataReady = true) : Inv s.stepGuest := by
  obtain ⟨buffer, hshape, haccepted⟩ := h.shape
  have hbounds := h.bounds
  obtain ⟨raw, len, recvBuffer, dataReady, producer, consumer, guestReading, accepted, received,
    accesses⟩ := s
  simp only at hready hshape haccepted hbounds
  subst hready
  cases guestReading with
  | false =>
    refine ⟨⟨buffer, hshape, ?_⟩, fun _ => rfl, hbounds⟩
    rw [haccepted]
    exact (append_nil _).symm ▸ rfl
  | true =>
    -- with the register full the shape does not depend on the status bit
    have hshape' : Shape (raw 1) recvBuffer producer consumer len false buffer := by
      cases hshape <;> constructor
    exact ⟨⟨buffer, hshape', haccepted⟩, fun h => (nomatch h), hbounds⟩

theorem inv_step (h : Inv s) {a : Action} (hok : Ok s a) : Inv (step s a) := by
  cases a with
  | typed b =>
    by_cases hidle : s.producer = .idle
    · obtain ⟨buffer, hshape, haccepted⟩ := h.shape
      obtain ⟨hlen, hconsumer⟩ := hok
      rw [hlen, hconsumer, hidle] at hshape
      rw [step, if_pos hidle]
      cases hshape
      refine h.of_register ⟨rfl, rfl, rfl, rfl⟩ ?_ haccepted h.bounds
      simp only [hlen, hconsumer]
      exact .typed b _
    · rw [step, if_neg hidle]
      exact h
  | check =>
    by_cases hidle : s.consumer = .idle
    · obtain ⟨buffer, hshape, haccepted⟩ := h.shape
      obtain ⟨hproducer, hfree⟩ := hok
      rw [hidle, hproducer] at hshape
      rw [step, if_pos hidle]
      refine h.of_register ⟨rfl, rfl, rfl, rfl⟩ ?_ haccepted h.bounds
      simp only [hproducer]
      rcases hfree with hlen | hready
      · rw [hlen] at hshape ⊢
        cases hshape
        exact .checkEmpty _
      · rw [hready] at hshape ⊢
        generalize s.len = len at hshape ⊢
        cases hshape
        · exact .checkEmpty _
        · exact .checkFull
    · rw [step, if_neg hidle]
      exact h
  | producer => exact inv_stepProducer h
  | consumer => exact inv_stepConsumer h
  | guest => exact inv_stepGuest h hok

end Step

theorem inv_run {as : List Action} (h : Runs.Guarded step Ok State.empty as) :
    Inv (run step State.empty as) :=
  run_invariant (I := Inv) (fun _ _ hs hok => inv_step hs hok) inv_empty h

def CanReach (P : State → Prop) : Prop :=
  ∃ more, Runs.Guarded step Ok s more ∧ (∀ b, Action.typed b ∉ more) ∧ P (run step s more)

theorem CanReach.trans {s : State} {P Q : State → Prop} (h : CanReach s P)
    (hPQ : ∀ s', P s' → CanReach s' Q) : CanReach s Q := by
  obtain ⟨as, hg, hnew, hP⟩ := h
  obtain ⟨bs, hg', hnew', hQ⟩ := hPQ _ hP
  refine ⟨as ++ bs, guarded_append.2 ⟨hg, hg'⟩, fun b hb => ?_, ?_⟩
  · simp_all
  · rwa [run_append]

theorem canReach_replicate {s : State} {a : Action} {P : State → Prop} (n : ℕ) (hok : ∀ s, Ok s a)
    (hnew : ∀ b, a ≠ .typed b) (hs : Inv s) (h : P (run step s (replicate n a))) :
    CanReach s fun s' => Inv s' ∧ P s' := by
  refine ⟨replicate n a, ?_, fun b hb => hnew b (eq_of_mem_replicate hb).symm, ?_, h⟩
  · clear h hs
    induction n generalizing s with
    | zero => trivial
    | succ n ih => exact ⟨hok s, ih⟩
  · clear h
    induction n generalizing s with
    | zero => exact hs
    | succ n ih => exact ih (inv_step hs (hok s))

theorem canReach_idle {s : State} (h : Inv s) :
    CanReach s fun s' => Inv s' ∧ s'.producer = .idle ∧ s'.consumer = .idle := by
  have hproducer : CanReach s fun s' => Inv s' ∧ s'.producer = .idle := by
    refine canReach_replicate 5 (a := .producer) (fun _ => trivial) (by simp) h ?_
    obtain ⟨buffer, hshape, -⟩ := h.shape
    obtain ⟨raw, len, recvBuffer, dataReady, producer, consumer, guestReading, accepted, received,
      accesses⟩ := s
    simp only at hshape
    cases hshape <;> rfl
  refine hproducer.trans ?_
  rintro s ⟨h, hidle⟩
  refine canReach_replicate 8 (a := .consumer) (fun _ => trivial) (by simp) h ?_
  obtain ⟨buffer, hshape, -⟩ := h.shape
  obtain ⟨raw, len, recvBuffer, dataReady, producer, consumer, guestReading, accepted, received,
    accesses⟩ := s
  simp only at hshape hidle
  subst hidle
  cases hshape <;> exact ⟨rfl, rfl⟩

section
variable {s : State} (h : Inv s) (hproducer : s.producer = .idle) (hconsumer : s.consumer = .idle)
include h hproducer hconsumer

theorem canReach_free :
    CanReach s fun s' => Inv s' ∧ s'.producer = .idle ∧ s'.consumer = .idle ∧ s'.len = s.len ∧
      s'.dataReady = false := by
  cases hready : s.dataReady with
  | false => exact ⟨[], trivial, by simp, h, hproducer, hconsumer, rfl, hready⟩
  | true =>
    have hread : Inv (step s .guest) := inv_step (a := .guest) h hready
    cases hreading : s.guestReading with
    | true =>
      refine ⟨[.guest], ⟨hready, trivial⟩, by simp, hread, ?_⟩
      rw [run_cons, step, State.stepGuest, if_pos hreading]
      exact ⟨hproducer, hconsumer, rfl, rfl⟩
    | false =>
      have hstep : step s .guest =
          { s with guestReading := true, received := s.received ++ [s.recvBuffer] } := by
        rw [step, State.stepGuest, if_neg (by rw [hreading]; decide)]
      have hready' : (step s .guest).dataReady = true := by rw [hstep]; exact hready
      refine ⟨[.guest, .guest], ⟨hready, hready', trivial⟩, by simp,
        inv_step (a := .guest) hread hready', ?_⟩
      rw [run_cons, hstep]
      exact ⟨hproducer, hconsumer, rfl, rfl⟩

theorem canReach_taken (hready : s.dataReady = false) :
    CanReach s fun s' => Inv s' ∧ s'.producer = .idle ∧ s'.consumer = .idle ∧ s'.len = 0 := by
  have hcheck : CanReach s fun s' => s' = step s .check :=
    ⟨[.check], ⟨⟨hproducer, .inr hready⟩, trivial⟩, by simp, rfl⟩
  refine hcheck.trans ?_
  rintro _ rfl
  refine canReach_replicate 8 (a := .consumer) (fun _ => trivial) (by simp)
    (inv_step (a := .check) h ⟨hproducer, .inr hready⟩) ?_
  obtain ⟨buffer, hshape, -⟩ := h.shape
  obtain ⟨raw, len, recvBuffer, dataReady, producer, consumer, guestReading, accepted, received,
    accesses⟩ := s
  subst hproducer hconsumer hready
  cases hshape with
  | empty => exact ⟨rfl, rfl, rfl⟩
  | full => exact ⟨rfl, rfl, sub_self (1 : Word)⟩

theorem Inv.received_eq (hlen : s.len = 0) (hready : s.dataReady = false) :
    s.received = s.accepted := by
  obtain ⟨buffer, hshape, haccepted⟩ := h.shape
  rw [hproducer, hconsumer, hlen] at hshape
  cases hshape
  rw [haccepted, State.register, hready, append_nil]
  exact (append_nil _).symm

end

theorem canReach_received {s : State} (h : Inv s) :
    CanReach s fun s' => s'.received = s'.accepted := by
  refine (canReach_idle h).trans ?_
  rintro s ⟨h, hproducer, hconsumer⟩
  refine (canReach_free h hproducer hconsumer).trans ?_
  rintro s ⟨h, hproducer, hconsumer, -, hready⟩
  refine (canReach_taken h hproducer hconsumer hready).trans ?_
  rintro s ⟨h, hproducer, hconsumer, hlen⟩
  refine (canReach_free h hproducer hconsumer).trans ?_
  rintro s' ⟨h', hproducer', hconsumer', hlen', hready'⟩
  exact ⟨[], trivial, by simp, h'.received_eq hproducer' hconsumer' (hlen'.trans hlen) hready'⟩

theorem Inv.received_prefix {s : State} (h : Inv s) : s.received <+: s.accepted := by
  obtain ⟨buffer, -, haccepted⟩ := h.shape
  rw [haccepted, append_assoc]
  exact prefix_append _ _

theorem accepted_step (a : Action) : s.accepted <+: (step s a).accepted := by
  have hstore (i : Word) (b : Byte) : (s.storeRaw i b).accepted = s.accepted := by
    unfold State.storeRaw
    split <;> rfl
  cases a with
  | typed b => rw [step]; split <;> exact prefix_rfl
  | check => rw [step]; split <;> exact prefix_rfl
  | producer =>
    rw [step, State.stepProducer]
    split
    case h_2 =>
      split
      · exact prefix_rfl
      · exact prefix_append _ _
    case h_6 i =>
      exact (hstore _ _).symm ▸ prefix_rfl
    all_goals exact prefix_rfl
  | consumer => rw [step, State.stepConsumer]; split <;> exact prefix_rfl
  | guest => rw [step, State.stepGuest]; split <;> exact prefix_rfl

theorem accepted_run (as : List Action) :
    s.accepted <+: (run step s as).accepted := by
  induction as generalizing s with
  | nil => exact prefix_rfl
  | cons a as ih => exact (accepted_step s a).trans (ih (step s a))

structure InOrder : Prop where
  order : s.received <+: s.accepted
  nothing_lost : s.producer = .idle → s.consumer = .idle → s.len = 0 → s.dataReady = false →
    s.received = s.accepted
  delivered : CanReach s fun s' => s.accepted <+: s'.accepted ∧ s'.received = s'.accepted
  bounds : ∀ i ∈ s.accesses, i < 128

theorem Inv.inOrder {s : State} (h : Inv s) : InOrder s where
  order := h.received_prefix
  nothing_lost := h.received_eq
  delivered := by
    obtain ⟨more, hmore, hnew, heq⟩ := canReach_received h
    exact ⟨more, hmore, hnew, accepted_run s more, heq⟩
  bounds := h.bounds

/-- **With one byte in the buffer at a time, taken when the register is free, the guest reads the
bytes in order and exactly once.** -/
theorem inOrder_of_guarded {as : List Action} (h : Runs.Guarded step Ok State.empty as) :
    InOrder (run step State.empty as) :=
  (inv_run h).inOrder

def oneByte (b : Byte) : List Action :=
  [.typed b] ++ replicate 5 .producer ++ [.check] ++ replicate 8 .consumer ++
    [.guest, .guest]

theorem inOrder_oneByte_oneByte :
    Runs.Guarded step Ok State.empty (oneByte 0x61 ++ oneByte 0x62) ∧
      InOrder (run step State.empty (oneByte 0x61 ++ oneByte 0x62)) :=
  have h : Runs.Guarded step Ok State.empty (oneByte 0x61 ++ oneByte 0x62) := by decide +kernel
  ⟨h, inOrder_of_guarded h⟩

def burst (bytes : List Byte) : List Action :=
  bytes.flatMap fun b => .typed b :: replicate 5 .producer

def checkAndRead : List Action :=
  [.check] ++ replicate 8 .consumer ++ [.guest, .guest]

/-- **Two bytes that are typed one after the other are read in the reverse order, and the last one
that fits is written behind the buffer.** -/
theorem not_inOrder_burst :
    ¬ InOrder (run step State.empty (burst [0x61, 0x62] ++ checkAndRead ++ checkAndRead)) ∧
      ¬ InOrder (run step State.empty (burst (replicate 128 0x61))) := by
  constructor
  · intro h
    have horder := h.order
    exact absurd horder (by decide)
  · intro h
    have houtside : 128 ∈ (run step State.empty
        (burst (replicate 128 0x61))).accesses := by
      decide +kernel
    exact absurd (h.bounds 128 houtside) (lt_irrefl 128)

end ConsoleRx
