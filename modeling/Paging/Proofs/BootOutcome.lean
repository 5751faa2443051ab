import Paging.Proofs.Runs

/-!
# Boot does all or nothing

Boot needs a processor with 4 MiB pages and two free frames, in this order. Without either, nothing is
left of the attempt (`boot_allOrNothing`): the one frame that there may be is taken and goes back the way
it came, so that the pool is the same down to its bitmap, and neither memory nor the processor was
touched.
-/

namespace Paging

namespace Session

/-- How a boot of `s` ends. A refusal leaves the session as it was, apart from the log and the counts of
frames that were taken and given back. -/
structure AllOrNothing (s : Session) : Prop where
  ok : (s.step .boot).1 = .ok .nothing ↔
    s.machine.cpu.hasLargePages = true ∧ 2 ≤ s.machine.pool.free
  noLargePages : s.machine.cpu.hasLargePages = false →
    ∃ log, s.step .boot = (.error (.boot (.install .noLargePages)),
      { s with machine := { s.machine with log } })
  noFrame : s.machine.cpu.hasLargePages = true → s.machine.pool.free < 2 →
    ∃ log, s.step .boot = (.error (.boot .noFrame), { s with machine := { s.machine with
      taken := s.machine.taken + s.machine.pool.free
      returned := s.machine.returned + s.machine.pool.free, log } })
  /-- A directory that was built is installed: the processor is asked again, and gives the same answer. -/
  installs : s.machine.cpu.hasLargePages = true → ∀ log d m,
    assembleDirectory { s.machine with log } = .ok (.ok d) m →
      ∃ m', (RootRecord.install {} d : MachineM _) m = .ok (.ok none, ⟨some ⟨d.root⟩⟩) m'

variable {s : Session}

/-- Without 4 MiB pages the pool is not even asked. -/
theorem step_boot_noLargePages (hpse : s.machine.cpu.hasLargePages = false) : ∃ log,
    s.step .boot = (.error (.boot (.install .noLargePages)), { s with machine := { s.machine with log } }) := by
  obtain ⟨log, hb⟩ := boot_refused hpse
  exact ⟨log, Holding.step_boot_refused (u := ⟨s, []⟩) hb⟩

/-- The one frame that there may be is taken, and given back. -/
theorem step_boot_tooFew (hp : s.machine.pool.Sound) (hpse : s.machine.cpu.hasLargePages = true)
    (hfree : s.machine.pool.free < 2) : ∃ log,
      s.step .boot = (.error (.boot .noFrame), { s with machine := { s.machine with
        taken := s.machine.taken + s.machine.pool.free
        returned := s.machine.returned + s.machine.pool.free, log } }) := by
  obtain ⟨log, hb⟩ := boot_tooFew hpse hp hfree
  exact ⟨log, Holding.step_boot_refused (u := ⟨s, []⟩) hb⟩

section InRam

variable (hp : s.machine.pool.Sound)
  (hram : ∀ f, (s.machine.pool.place? f).isSome → s.machine.ram.Holds f)

include hp hram

theorem step_boot_ok_iff : (s.step .boot).1 = .ok .nothing ↔
    s.machine.cpu.hasLargePages = true ∧ 2 ≤ s.machine.pool.free := by
  constructor
  · intro hok
    cases hpse : s.machine.cpu.hasLargePages with
    | false =>
      obtain ⟨log, hb⟩ := step_boot_noLargePages hpse
      rw [hb] at hok
      cases hok
    | true =>
      refine ⟨rfl, ?_⟩
      by_contra hfree
      obtain ⟨log, hb⟩ := step_boot_tooFew hp hpse (by omega)
      rw [hb] at hok
      cases hok
  · rintro ⟨hpse, hfree⟩
    obtain ⟨root, p₁, table, pool, h₁, h₂, hr, ht⟩ := exists_boot_frames hp hram hfree
    obtain ⟨log, hb⟩ := boot_done hpse h₁ h₂ hr ht
    rw [Holding.step_boot (u := ⟨s, []⟩) hb]

/-- Building a directory does not change what the processor supports. -/
theorem installs_built (hpse : s.machine.cpu.hasLargePages = true) {log : Log} {d : BuiltDirectory}
    {m : Machine} (hbuilt : assembleDirectory { s.machine with log } = .ok (.ok d) m) :
    ∃ m', (RootRecord.install {} d : MachineM _) m = .ok (.ok none, ⟨some ⟨d.root⟩⟩) m' := by
  rcases Nat.lt_or_ge s.machine.pool.free 2 with hfree | hfree
  · obtain ⟨log', hx⟩ := assemble_tooFew (m := { s.machine with log }) hp hfree
    rw [hx] at hbuilt
    cases hbuilt
  · obtain ⟨root, p₁, table, pool, h₁, h₂, hr, ht⟩ := exists_boot_frames hp hram hfree
    obtain ⟨log', hx⟩ := assemble_done (m := { s.machine with log }) h₁ h₂ hr ht
    rw [hx] at hbuilt
    cases hbuilt
    refine ⟨_, install_done ?_ {} ⟨root⟩⟩
    exact hpse

end InRam

/-- **Boot does all or nothing**, whatever is live in the pool and whatever memory holds. -/
theorem boot_allOrNothing {s : Session} (hp : s.machine.pool.Sound)
    (hram : ∀ f ∈ s.machine.pool.window, s.machine.ram.Holds f) : s.AllOrNothing := by
  have hplace (f : Frame) (hf : (s.machine.pool.place? f).isSome) : s.machine.ram.Holds f :=
    hram f (FramePool.mem_window_iff.2 hf)
  exact ⟨step_boot_ok_iff hp hplace, step_boot_noLargePages, step_boot_tooFew hp,
    fun hpse _ _ _ => installs_built hp hplace hpse⟩

/-- A machine with one frame, which boot has to give back. -/
def cramped : Session := .start (.fresh (Page.ofNumber 16) 1) true
  ⟨Page.ofNumber 16, 1, 0, #[FramePool.initialWord 1 0]⟩ none

theorem boot_allOrNothing_cramped : cramped.machine.pool.Sound ∧ cramped.machine.pool.free = 1 ∧
    cramped.AllOrNothing := by
  have hc : FramePool.create 1 (Page.ofNumber 16) 1 = .ok cramped.machine.pool :=
    FramePool.create_of_fits (by decide) (by decide)
  have hp := FramePool.sound_of_create hc
  refine ⟨hp, rfl, boot_allOrNothing hp ?_⟩
  rintro f ⟨hle, hlt⟩
  have hle' : 16 ≤ f.number := hle
  have hlt' : f.number < 17 := hlt
  show 16 ≤ f.number ∧ f.number - 16 < 1
  omega

end Session

end Paging
