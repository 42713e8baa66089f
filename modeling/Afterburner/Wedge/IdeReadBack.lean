import Afterburner.Wedge.IdeRead
import Afterburner.Wedge.IdeWrite

/-!
# Reading back what has been written

The disk is the replay of the log of sector accesses, so READ SECTORS returns what was written.
-/

namespace Wedge
open List IdeDevice Runs
namespace Ide

/-- Word `i` of sector `sec`, which held `x`, after the access `a`. -/
def overwrite (sec i : ℕ) (x : Word16) (a : SectorAccess) : Word16 :=
  if a.doWrite = true ∧ a.sector = sec then a.words.getD i 0 else x

/-- From `s` to `t` the disk has changed by the accesses that the log has got, and by no others. -/
def Replays (s t : Ide) : Prop :=
  ∃ l, t.log = s.log ++ l ∧
    ∀ sec, ∀ i < 256, t.disk sec i = l.foldl (overwrite sec i) (s.disk sec i)

variable {s t u : Ide}

theorem foldl_sectorAccesses (b : Bool) (offset count sec : ℕ) {i : ℕ} (hi : i < 256)
    (w : ℕ → Word16) (x : Word16) :
    (sectorAccesses b offset count w).foldl (overwrite sec i) x =
      if b = true ∧ offset ≤ sec ∧ sec < offset + count then w (256 * (sec - offset) + i)
      else x := by
  induction count with
  | zero => grind [sectorAccesses]
  | succ n ih =>
    have hlast (y : Word16) : (sectorAccesses b (offset + n) 1 fun i => w (256 * n + i)).foldl
        (overwrite sec i) y = if b = true ∧ offset + n = sec then w (256 * n + i) else y := by
      simp [sectorAccesses, overwrite, getD_eq_getElem?_getD, hi]
    rw [sectorAccesses_add, foldl_append, ih, hlast]
    grind

theorem Replays.of_eq (hlog : t.log = s.log) (hdisk : t.disk = s.disk) : Replays s t :=
  ⟨[], by simp [hlog], by simp [hdisk]⟩

theorem Replays.trans (h : Replays s t) (h' : Replays t u) : Replays s u := by
  obtain ⟨l, hlog, hdisk⟩ := h
  obtain ⟨l', hlog', hdisk'⟩ := h'
  exact ⟨l ++ l', by rw [hlog', hlog, append_assoc],
    fun sec i hi => by rw [hdisk' sec i hi, hdisk sec i hi, foldl_append]⟩

theorem replays_transfer (s : Ide) (r : BlockRequest) : Replays s (s.transfer r) := by
  cases hw : r.doWrite <;> refine ⟨_, by simp [transfer, hw]; rfl, fun sec i hi => ?_⟩ <;>
    simp [transfer, hw, foldl_sectorAccesses _ _ _ _ hi]

theorem replays_serve (s : Ide) : Replays s s.serve := by
  unfold serve
  split
  · exact .of_eq rfl rfl
  · next r rest _ =>
    refine (replays_transfer { s with queue := rest } r).trans (.of_eq ?_ ?_) <;>
      unfold complete <;> split <;> simp

theorem replays_settle (s : Ide) : Replays s s.settle := by
  have hresume : Replays s s.resume := by
    unfold resume
    split <;> exact .of_eq rfl rfl
  unfold settle
  split_ifs
  exacts [hresume.trans (replays_serve _), hresume]

theorem replays_ioDataWrite (s : Ide) (v : Word16) : Replays s (s.ioDataWrite v) := by
  apply Replays.of_eq <;> unfold ioDataWrite nextDrqBlock <;> dsimp only <;> split_ifs <;>
    simp [store, nextChunk, transferBlock]

theorem replays_pioWrite (s : Ide) (w : ℕ → Word16) : Replays s (s.pioWrite w) := by
  have hstart : Replays s s.writeSectors := by
    refine .of_eq ?_ ?_ <;> simp only [writeSectors, requireLba, raiseIrq_log, raiseIrq_disk] <;>
      split_ifs <;> rfl
  have hfeed (t : Ide) (n : ℕ) : Replays t (t.feed w 0 n) := by
    induction n with
    | zero => exact .of_eq rfl rfl
    | succ n ih => exact (ih.trans (replays_ioDataWrite _ _)).trans (replays_settle _)
  exact (hstart.trans (replays_settle _)).trans (hfeed _ _)

theorem timely_round {x : PioReader} (h : x.Inv s) :
    Runs.Guarded PioReader.step PioReader.Timely x [.resume, .serve, .read] :=
  ⟨nofun, fun _ => h.at_.resume.2, nofun, trivial⟩

/-- Rounds of the server and the guest bring the words that are missing. -/
theorem PioReader.Inv.finish {x : PioReader} (h : x.Inv s)
    (hfit : s.dev.getSector.toNat + s.dev.sectorCount ≤ 2 ^ 28) {n : ℕ}
    (hn : x.words.length + n = 256 * s.dev.sectorCount) :
    ∃ more, (run PioReader.step x more).words =
      (range (256 * s.dev.sectorCount)).map s.expected := by
  induction n generalizing x with
  | zero => exact ⟨[], by rw [← hn]; exact h.words⟩
  | succ n ih =>
    have hround : x.round.Inv s := run_invariant (fun _ _ h he => h.step hfit he) h
      (timely_round h)
    obtain ⟨more, hmore⟩ := ih hround (by rw [h.progress (by omega)]; omega)
    exact ⟨[.resume, .serve, .read] ++ more, by rw [run_append]; exact hmore⟩

/-- **What has been written is read back.** After a WRITE SECTORS that writes its own sectors, a
READ SECTORS of any of them returns the words written, in order, and can be brought to the last one,
whenever the block server answers, if not in the middle of an access. -/
theorem pioRead_of_writeExact {w : ℕ → Word16} (hexact : s.WriteExact w) (hq : t.queue = [])
    (hlba : t.dev.lba = true) (hfit : t.dev.getSector.toNat + t.dev.sectorCount ≤ 2 ^ 28)
    (hfrom : s.dev.getSector.toNat ≤ t.dev.getSector.toNat)
    (hto : t.dev.getSector.toNat + t.dev.sectorCount ≤
      s.dev.getSector.toNat + s.dev.sectorCount) (events : List PioEvent)
    (htimely : Runs.Guarded PioReader.step PioReader.Timely
      ⟨readSectors { t with disk := (s.pioWrite w).disk }, []⟩ events) :
    let r := pioRead { t with disk := (s.pioWrite w).disk } events
    let written := fun i => w (256 * (t.dev.getSector.toNat - s.dev.getSector.toNat) + i)
    r.words = ((range r.words.length).map fun i =>
        if i < 256 * t.dev.sectorCount then written i else 0xff) ∧
      (r.words.length ≤ 256 * t.dev.sectorCount →
        ∃ more, (run PioReader.step r more).words =
          (range (256 * t.dev.sectorCount)).map written) := by
  intro r written
  obtain ⟨l, hlog, hwritten⟩ := replays_pioWrite s w
  obtain rfl := append_cancel_left (hlog.symm.trans hexact)
  have hinv : r.Inv { t with disk := (s.pioWrite w).disk } :=
    run_invariant (fun _ _ h he => h.step hfit he)
      ⟨.waiting _ _ (waiting_readSectors { t with disk := (s.pioWrite w).disk } hq hlba) rfl,
        rfl⟩ htimely
  have hexpected (i : ℕ) : expected { t with disk := (s.pioWrite w).disk } i =
      if i < 256 * t.dev.sectorCount then written i else 0xff := by
    have hmod : i % 256 < 256 := Nat.mod_lt i (by decide)
    simp only [expected, sectorWords, written]
    split_ifs with hi
    · rw [hwritten _ _ hmod, foldl_sectorAccesses _ _ _ _ hmod, if_pos ⟨rfl, by omega, by omega⟩]
      congr 1
      omega
    · rfl
  refine ⟨hinv.words.trans (map_congr_left fun i _ => hexpected i), fun hle => ?_⟩
  obtain ⟨n, hn⟩ := Nat.exists_eq_add_of_le hle
  obtain ⟨more, hmore⟩ := hinv.finish hfit hn.symm
  refine ⟨more, hmore.trans (map_congr_left fun i hi => ?_)⟩
  rw [hexpected, if_pos (mem_range.1 hi)]

theorem pioRead_programmed : (programmed 1).dev.lba = true ∧
    let r := pioRead { programmed 1 with
      disk := ((programmed 2).pioWrite (BitVec.ofNat 16)).disk } [.resume, .serve, .read]
    let written := fun i => BitVec.ofNat 16
      (256 * ((programmed 1).dev.getSector.toNat - (programmed 2).dev.getSector.toNat) + i)
    r.words = ((range r.words.length).map fun i =>
        if i < 256 * (programmed 1).dev.sectorCount then written i else 0xff) ∧
      (r.words.length ≤ 256 * (programmed 1).dev.sectorCount →
        ∃ more, (run PioReader.step r more).words =
          (range (256 * (programmed 1).dev.sectorCount)).map written) := by
  have hexact : (programmed 2).WriteExact (BitVec.ofNat 16) :=
    log_pioWrite_of_le _ rfl rfl rfl (by decide)
  exact ⟨rfl, pioRead_of_writeExact hexact rfl rfl (by decide) (by decide) (by decide) _
    ⟨nofun, fun _ => rfl, nofun, trivial⟩⟩

end Ide
end Wedge
