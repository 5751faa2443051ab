import Paging.Proofs.Lending
import Paging.Proofs.Operations
import Paging.Proofs.Startup

/-!
# Runs of a booted machine

A `Holding` is a session in the hands of a caller, with the frames that the caller holds. It starts
with a pool that was just set up and lies in memory (`Unbooted`), and a boot that succeeds makes it
`Booted`. Then come `Event`s in any order: steps of the address space, steps of the pool, and
translations that the processor caches by itself.

A booted holding is `Backed` by tables: its machine mirrors sound tables, and the caller holds none of
them. Every harmless event keeps it so, and its tables advance (`Backed.next`); hence so does every
harmless run (`Backed.advance`), and every fair one (`Backed.run`).

Boot may also be refused, and then there are no tables. `Standing` covers both ends with the set of
frames that belong to the tables: outside of it, no run changes memory (`Standing.run`).
-/

namespace Paging

structure Holding where
  session : Session
  /-- The frames that the caller took or reserved and has not given back. -/
  held : List Frame

inductive Event where
  | space (p : SpaceStep)
  | pool (p : PoolStep)
  /-- The processor caches what the tables give for `va`. -/
  | cache (va : VirtualAddress)

namespace Holding

/-- The pool of the machine, as the caller sees it. -/
def lending (u : Holding) : Lending := ⟨u.session.machine.pool, u.session.lent, u.session.machine.log⟩

def next (u : Holding) : Event → Holding
  | .space p => { u with session := (u.session.step (.space p)).2 }
  | .pool p => ⟨(u.session.step (.pool p)).2, u.lending.heldAfter u.held p⟩
  | .cache va =>
    { u with session := { u.session with machine := Machine.cacheWalk va u.session.machine } }

def run (u : Holding) (es : List Event) : Holding := es.foldl next u

/-- The holding with another machine. -/
def onto (u : Holding) (m : Machine) : Holding := { u with session := { u.session with machine := m } }

/-- What the event answers. The processor has nothing to say. -/
def answer (u : Holding) : Event → Except StepError Answer
  | .space p => (u.session.step (.space p)).1
  | .pool p => (u.session.step (.pool p)).1
  | .cache _ => .ok .nothing

/-- The answers of a run, in order. -/
def answers (u : Holding) : List Event → List (Except StepError Answer)
  | [] => []
  | e :: es => u.answer e :: (u.next e).answers es

/-- The caller gives back only what it holds. -/
def Fair (u : Holding) : Event → Prop
  | .pool p => u.lending.Fair u.held p
  | _ => True

/-- Every event is fair where it happens. -/
def FairRun (u : Holding) : List Event → Prop
  | [] => True
  | e :: es => u.Fair e ∧ (u.next e).FairRun es

/-- The caller gives back no live frame that it does not hold. -/
def Harmless (u : Holding) : Event → Prop
  | .pool p => u.lending.Harmless u.held p
  | _ => True

/-- Every event is harmless where it happens. -/
def HarmlessRun (u : Holding) : List Event → Prop
  | [] => True
  | e :: es => u.Harmless e ∧ (u.next e).HarmlessRun es

/-- Before boot: a new machine whose pool lies in memory, whatever the caller did with the pool since,
and however often boot was refused. -/
inductive Unbooted : Holding → Prop where
  | start {wordCount : Nat} {base : Frame} {frames : Nat} {pool : FramePool} {ram : Ram}
    (hpool : FramePool.create wordCount base frames = .ok pool)
    (hram : ∀ f, (pool.place? f).isSome → ram.Holds f) (hasLargePages : Bool)
    (threshold : Option LogLevel) : Unbooted ⟨.start ram hasLargePages pool threshold, []⟩
  | next {u : Holding} (h : Unbooted u) {e : Event} (hf : u.Fair e) : Unbooted (u.next e)
  | refused {u : Holding} (h : Unbooted u) {e : StepError} {s : Session}
    (hb : u.session.step .boot = (.error e, s)) : Unbooted ⟨s, u.held⟩

inductive Booted : Holding → Prop where
  | boot {u : Holding} (h : Unbooted u) {s : Session} (hb : u.session.step .boot = (.ok .nothing, s)) :
    Booted ⟨s, u.held⟩

/-- The holding after boot, whether that succeeded or was refused. -/
def afterBoot (u : Holding) : Holding := ⟨(u.session.step .boot).2, u.held⟩

variable {u : Holding} {m : Machine} {es es' : List Event}

theorem run_append : u.run (es ++ es') = (u.run es).run es' := List.foldl_append

theorem Fair.harmless {e : Event} (h : u.Fair e) : u.Harmless e := by
  cases e with
  | pool p => exact Lending.Fair.harmless h
  | space | cache => trivial

theorem FairRun.harmless (h : u.FairRun es) : u.HarmlessRun es := by
  induction es generalizing u with
  | nil => trivial
  | cons e es ih => exact ⟨h.1.harmless, ih h.2⟩

theorem harmlessRun_append : u.HarmlessRun (es ++ es') ↔ u.HarmlessRun es ∧ (u.run es).HarmlessRun es' := by
  induction es generalizing u with
  | nil => simp [HarmlessRun, run]
  | cons e es ih =>
    show u.Harmless e ∧ (u.next e).HarmlessRun (es ++ es') ↔ _
    rw [ih]
    exact and_assoc.symm

/-! ## Before boot -/

structure Idle (u : Holding) : Prop where
  pool : u.session.machine.pool.Sound
  inRam : ∀ f, (u.session.machine.pool.place? f).isSome → u.session.machine.ram.Holds f
  owns : u.session.machine.pool.Owns u.held
  space : u.session.space = none
  root : u.session.machine.cpu.root = none
  uses : u.session.machine.uses = #[]
  balance : u.session.machine.taken = u.session.machine.returned

theorem step_boot {record : RootRecord} (h : boot u.session.machine = .ok (.ok record) m) :
    u.session.step .boot = (.ok .nothing, { u.session with machine := m, space := some record }) := by
  show u.session.boot = _
  simp only [Session.boot, Session.act, h]

theorem step_boot_refused {e : BootRefusal} (h : boot u.session.machine = .ok (.error e) m) :
    u.session.step .boot = (.error (.boot e), { u.session with machine := m }) := by
  show u.session.boot = _
  simp only [Session.boot, Session.act, h]

/-- The holding after a boot with the directory in `root` and the first table in `table`, which leaves
`pool`. -/
def bootedAt (u : Holding) (root table : Frame) (pool : FramePool) (log : Log) : Holding where
  session := { u.session with
    space := some ⟨some ⟨root⟩⟩
    machine := { u.session.machine with
      ram := u.session.machine.ram.withBootTables root table
      cpu := ((u.session.machine.cpu.execute .largePagesOn).execute (.setRoot root)).execute .pagingOn
      pool, taken := u.session.machine.taken + 2
      calls := ((u.session.machine.calls.push .largePagesOn).push (.setRoot root)).push .pagingOn
      log } }
  held := u.held

namespace Idle

/-- Boot succeeds with two frames, or is refused and changes nothing that matters. -/
theorem boot (h : u.Idle) :
    (∃ root table p₁ pool log, u.session.machine.pool.takeLowest? = some (root, p₁) ∧
      p₁.takeLowest? = some (table, pool) ∧
      u.session.step .boot = (.ok .nothing, (u.bootedAt root table pool log).session)) ∨
    ∃ e s, u.session.step .boot = (.error e, s) ∧ s.machine.ram = u.session.machine.ram ∧
      Idle ⟨s, u.held⟩ := by
  cases hpse : u.session.machine.cpu.hasLargePages with
  | false =>
    obtain ⟨log, hb⟩ := boot_refused hpse
    exact Or.inr ⟨_, _, step_boot_refused hb, rfl, { h with }⟩
  | true =>
    rcases Nat.lt_or_ge u.session.machine.pool.free 2 with hfree | hfree
    · obtain ⟨log, hb⟩ := boot_tooFew hpse h.pool hfree
      refine Or.inr ⟨_, _, step_boot_refused hb, rfl, { h with balance := ?_ }⟩
      exact congrArg (· + u.session.machine.pool.free) h.balance
    · obtain ⟨root, p₁, table, pool, h₁, h₂, hr, ht⟩ := exists_boot_frames h.pool h.inRam hfree
      obtain ⟨log, hb⟩ := boot_done hpse h₁ h₂ hr ht
      exact Or.inl ⟨root, table, p₁, pool, log, h₁, h₂, step_boot hb⟩

theorem step_space (h : u.Idle) (p : SpaceStep) :
    u.session.step (.space p) = (.error (.missing .addressSpace), u.session) := by
  show u.session.spaceStep p = _
  simp only [Session.spaceStep, h.space]

theorem cacheWalk (h : u.Idle) (va : VirtualAddress) :
    Machine.cacheWalk va u.session.machine = u.session.machine := by
  simp only [Machine.cacheWalk, h.root, Option.map_none]

theorem next (h : u.Idle) {e : Event} (hf : u.Harmless e) : (u.next e).Idle := by
  cases e with
  | space p =>
    simp only [Holding.next, h.step_space]
    exact h
  | pool p =>
    have hk := Lending.step_keeps (l := u.lending) h.pool h.owns hf
    exact { h with pool := hk.sound, inRam := fun f hf => h.inRam f (hk.place f ▸ hf), owns := hk.owns }
  | cache va =>
    simp only [Holding.next, h.cacheWalk]
    exact h

end Idle

theorem Unbooted.idle (h : u.Unbooted) : u.Idle := by
  induction h with
  | start hpool hram _ _ =>
    refine ⟨FramePool.sound_of_create hpool, hram, ⟨List.nodup_nil, ?_⟩, rfl, rfl, rfl, rfl⟩
    intro f hf
    simp at hf
  | next _ hf ih => exact ih.next hf.harmless
  | refused _ hb ih =>
    rcases ih.boot with ⟨_, _, _, _, _, -, -, hs⟩ | ⟨e', s', hs, -, hi⟩
    · rw [hs] at hb; cases hb
    · rw [hs] at hb; cases hb; exact hi

/-- Two free frames and a processor with 4 MiB pages are enough. -/
theorem Unbooted.boot (h : u.Unbooted) (hpse : u.session.machine.cpu.hasLargePages = true)
    (hfree : 2 ≤ u.session.machine.pool.free) : Booted ⟨(u.session.step .boot).2, u.held⟩ := by
  have hi := h.idle
  obtain ⟨root, p₁, table, pool, h₁, h₂, hr, ht⟩ := exists_boot_frames hi.pool hi.inRam hfree
  obtain ⟨log, hb⟩ := boot_done hpse h₁ h₂ hr ht
  have hs := step_boot hb
  exact .boot h (by rw [hs])

/-- A new machine with eight frames of memory, all of them in the pool. -/
def small : Holding where
  session := .start (.fresh ⟨16, by decide⟩ 8) true
    ⟨⟨16, by decide⟩, 8, 0, #[FramePool.initialWord 8 0]⟩ none
  held := []

theorem unbooted_small : small.Unbooted := by
  have hpool : FramePool.create 1 ⟨16, by decide⟩ 8 =
    .ok ⟨⟨16, by decide⟩, 8, 0, #[FramePool.initialWord 8 0]⟩ := rfl
  refine .start hpool ?_ true none
  intro f hf
  obtain ⟨i, hi⟩ := Option.isSome_iff_exists.1 hf
  obtain ⟨hn, hlt⟩ : f.number = 16 + i ∧ i < 8 := FramePool.place?_eq_some_iff.1 hi
  show 16 ≤ f.number ∧ f.number - 16 < (Array.replicate 8 _).size
  rw [Array.size_replicate]
  omega

/-- The small machine after boot. -/
def smallBooted : Holding := ⟨(small.session.step .boot).2, []⟩

theorem booted_small : smallBooted.Booted := unbooted_small.boot rfl (by decide)

/-! ## After boot -/

/-- The machine mirrors the tables `t`, the address space is theirs, and the caller holds none of
them. -/
structure Backed (s : Scope) (u : Holding) (t : Tables) : Prop where
  sound : t.Sound
  mirrors : u.session.machine.Mirrors t (t.translations s)
  space : u.session.space = some ⟨some ⟨t.root⟩⟩
  owns : t.pool.Owns u.held
  apart : ∀ i f, t.table? i = some f → f ∉ u.held

variable {s : Scope} {t t' : Tables}

section BootedAt

variable {root table : Frame} {p₁ pool : FramePool} (h : u.Idle)
  (h₁ : u.session.machine.pool.takeLowest? = some (root, p₁)) (h₂ : p₁.takeLowest? = some (table, pool))

include h h₁ h₂

theorem Idle.backed (s : Scope) (log : Log) : Backed s (u.bootedAt root table pool log)
    (bootTables u.session.machine root table pool) := by
  obtain ⟨hne, hroot, htable, -, hlive, -⟩ := boot_frames h.pool h₁ h₂
  obtain ⟨hr, ht⟩ := holds_boot_frames h.pool h.inRam h₁ h₂
  refine ⟨bootTables_sound h.pool h.inRam h₁ h₂, ?_, rfl, ⟨h.owns.nodup, ?_⟩, ?_⟩
  · refine ⟨rfl, rfl, rfl, rfl, rfl, rfl, rfl, Tlb.within_empty _, ?_, ?_⟩
    · intro w hw
      simp [bootedAt, h.uses] at hw
    · intro w hw
      simp [bootedAt, h.uses] at hw
  · intro f hf
    show pool.isLive f
    rw [hlive, h.owns.live f hf, ite_self]
  · -- the tables were free before boot, and what the caller holds was not
    intro i f hf hheld
    have hf' := h.owns.live f hheld
    rw [table?_bootTables hr] at hf
    split at hf
    · cases hf; rw [htable] at hf'; cases hf'
    · split at hf
      · cases hf; rw [hroot] at hf'; cases hf'
      · cases hf

end BootedAt

/-- Before it was booted it was idle, with two frames to take. -/
theorem Booted.exists_idle (h : u.Booted) : ∃ (v : Holding) (root table : Frame) (p₁ pool : FramePool)
    (log : Log), v.Idle ∧ v.session.machine.pool.takeLowest? = some (root, p₁) ∧
      p₁.takeLowest? = some (table, pool) ∧ u = v.bootedAt root table pool log := by
  cases h with
  | @boot v hv s hb =>
    have hi := hv.idle
    rcases hi.boot with ⟨root, table, p₁, pool, log, h₁, h₂, hs⟩ | ⟨e, s', hs, -, -⟩
    · rw [hs] at hb; cases hb
      exact ⟨v, root, table, p₁, pool, log, hi, h₁, h₂, rfl⟩
    · rw [hs] at hb; cases hb

theorem Booted.backed (h : u.Booted) (s : Scope) : ∃ m root table pool, m.ram.Holds root ∧
    m.ram.Holds table ∧ table ≠ root ∧ Backed s u (bootTables m root table pool) := by
  obtain ⟨v, root, table, p₁, pool, log, hv, h₁, h₂, rfl⟩ := h.exists_idle
  obtain ⟨hne, -⟩ := boot_frames hv.pool h₁ h₂
  obtain ⟨hr, ht⟩ := holds_boot_frames hv.pool hv.inRam h₁ h₂
  exact ⟨v.session.machine, root, table, pool, hr, ht, hne, hv.backed h₁ h₂ s log⟩

theorem spaceStep_of_ok {record : RootRecord} (hs : u.session.space = some record) {p : SpaceStep}
    {a : Except StepError Answer} (h : Space.step p u.session.machine = .ok a m) :
    u.session.step (.space p) = (a, { u.session with machine := m }) := by
  show u.session.spaceStep p = _
  unfold Session.spaceStep Session.act
  rw [h]
  split
  · rename_i hn; rw [hs] at hn; cases hn
  · rfl

theorem spaceStep_of_error {record : RootRecord} (hs : u.session.space = some record) {p : SpaceStep}
    {e : Fault} (h : Space.step p u.session.machine = .error e m) :
    u.session.step (.space p) = (.error (.fault e), { u.session with machine := m }) := by
  show u.session.spaceStep p = _
  unfold Session.spaceStep Session.act
  rw [h]
  split
  · rename_i hn; rw [hs] at hn; cases hn
  · rfl

namespace Backed

/-- An action that performs what its direct form says leaves a machine that stands for the new tables. -/
theorem onto {α : Type} {x : MachineM α} {r : α × Tables} (h : Backed s u t) (hx : Performs s x t r) :
    ∃ m, x u.session.machine = .ok r.1 m ∧ Backed s (u.onto m) r.2 := by
  obtain ⟨m, hm, hmir, -⟩ := hx.computes _ h.mirrors
  refine ⟨m, hm, hx.sound, hmir, ?_, ⟨h.owns.nodup, ?_⟩, ?_⟩
  · rw [hx.grows.root]; exact h.space
  · intro f hf
    exact hx.grows.live f (h.owns.live f hf)
  · intro i f hf hheld
    rcases hx.grows.fresh i f hf with hf | hn
    · exact h.apart i f hf hheld
    · rw [h.owns.live f hheld] at hn; cases hn

/-- A step of the address space answers what the tables say, and leaves them as they say. -/
theorem step_space (h : Backed s u t) {p : SpaceStep} (hf : s.Follows p) :
    (u.session.step (.space p)).1 = (t.step p).1 ∧ t.Grows (t.step p).2 ∧
      Backed s (u.next (.space p)) (t.step p).2 := by
  by_cases hr : p.InRange
  · have hx := Performs.step h.sound hr hf
    obtain ⟨m, hm, h'⟩ := h.onto hx
    have hs := spaceStep_of_ok h.space hm
    simp only [Holding.next, hs]
    exact ⟨trivial, hx.grows, h'⟩
  · obtain ⟨hm, ht⟩ := Space.step_of_not_inRange hr u.session.machine t
    have hs := spaceStep_of_error h.space hm
    simp only [Holding.next, hs, ht]
    exact ⟨trivial, .refl t, h⟩

theorem step_pool (h : Backed s u t) {p : PoolStep} (hf : u.lending.Harmless u.held p) :
    Backed s (u.next (.pool p)) { t with pool := (u.lending.step p).2.pool } := by
  have hpool : u.lending.pool = t.pool := h.mirrors.pool
  have hk := Lending.step_keeps (hpool ▸ h.sound.pool) (hpool ▸ h.owns) hf
  rw [hpool] at hk
  have hothers (i : SlotIndex) (f : Frame) (hi : t.table? i = some f) :=
    hk.others f (h.sound.live i f hi) (h.apart i f hi)
  exact ⟨h.sound.setPool hk.sound hk.place (fun i f hi => (hothers i f hi).1) t.taken,
    { h.mirrors with pool := rfl }, h.space, hk.owns, fun i f hi => (hothers i f hi).2⟩

/-- One harmless event. -/
theorem next (h : Backed s u t) {e : Event} (hf : u.Harmless e) (hs : ∀ p, e = .space p → s.Follows p) :
    ∃ t', t.Advances t' ∧ Backed s (u.next e) t' := by
  cases e with
  | space p =>
    obtain ⟨-, hgrows, h'⟩ := h.step_space (hs p rfl)
    exact ⟨_, hgrows.toAdvances, h'⟩
  | pool p => exact ⟨_, .setPool t _, h.step_pool hf⟩
  | cache va => exact ⟨t, .refl t, { h with mirrors := h.mirrors.cacheWalk h.sound va }⟩

/-- A harmless run. -/
theorem advance (h : Backed s u t) (hf : u.HarmlessRun es) (hs : ∀ p, .space p ∈ es → s.Follows p) :
    ∃ t', t.Advances t' ∧ Backed s (u.run es) t' := by
  induction es generalizing u t with
  | nil => exact ⟨t, .refl t, h⟩
  | cons e es ih =>
    obtain ⟨t₁, hadv₁, h₁⟩ := h.next hf.1 fun p hp => hs p (hp ▸ List.mem_cons_self)
    obtain ⟨t', hadv, h'⟩ := ih h₁ hf.2 fun p hp => hs p (List.mem_cons_of_mem _ hp)
    exact ⟨t', hadv₁.trans hadv, h'⟩

/-- A fair run. -/
theorem run (h : Backed s u t) (hf : u.FairRun es) (hs : ∀ p, .space p ∈ es → s.Follows p) :
    ∃ t', t'.root = t.root ∧ Backed s (u.run es) t' := by
  obtain ⟨t', hadv, h'⟩ := h.advance hf.harmless hs
  exact ⟨t', hadv.root, h'⟩

end Backed

/-- After boot and a harmless run there are tables, in the directory of boot. -/
theorem Booted.run_backed (hb : u.Booted) (hf : u.HarmlessRun es) :
    ∃ t : Tables, u.session.space = some ⟨some ⟨t.root⟩⟩ ∧ Backed .windows (u.run es) t := by
  obtain ⟨_, _, _, _, -, -, -, h⟩ := hb.backed .windows
  obtain ⟨t, hadv, h'⟩ := h.advance hf fun _ _ => Or.inr rfl
  exact ⟨t, hadv.root ▸ h.space, h'⟩

/-! ## Whether boot succeeded or not -/

/-- The frames `F` belong to the tables. Without an address space, none does. -/
inductive Standing : Holding → Set Frame → Prop where
  | idle {u : Holding} (h : u.Idle) : Standing u ∅
  | backed {u : Holding} {t : Tables} (h : Backed .windows u t) : Standing u t.owned

namespace Standing

variable {F : Set Frame}

theorem not_mem_of_held (h : u.Standing F) {f : Frame} (hf : f ∈ u.held) : f ∉ F := by
  cases h with
  | idle => exact id
  | backed h =>
    rintro ⟨i, hi⟩
    exact h.apart i f hi hf

theorem isLive (h : u.Standing F) {f : Frame} (hf : f ∈ F) : u.session.machine.pool.isLive f := by
  cases h with
  | idle => exact absurd hf id
  | backed h =>
    obtain ⟨i, hi⟩ := hf
    rw [h.mirrors.pool]
    exact h.sound.live i f hi

/-- An event without an address space does nothing to memory. -/
theorem ram_next_idle (h : u.Idle) (e : Event) :
    (u.next e).session.machine.ram = u.session.machine.ram := by
  cases e with
  | space p => simp only [Holding.next, h.step_space]
  | pool p => rfl
  | cache va => simp only [Holding.next, h.cacheWalk]

theorem next (h : u.Standing F) {e : Event} (hf : u.Harmless e) : ∃ F', F ⊆ F' ∧
    (u.next e).Standing F' ∧
      ∀ f, f ∉ F' → (u.next e).session.machine.ram.frame? f = u.session.machine.ram.frame? f := by
  cases h with
  | idle h =>
    refine ⟨∅, subset_rfl, .idle (h.next hf), ?_⟩
    intro f _
    rw [ram_next_idle h]
  | backed h =>
    obtain ⟨t', hadv, h'⟩ := h.next hf fun _ _ => Or.inr rfl
    refine ⟨t'.owned, hadv.owned_subset, .backed h', ?_⟩
    rw [h.mirrors.ram, h'.mirrors.ram]
    exact hadv.spares

theorem run (h : u.Standing F) (hf : u.HarmlessRun es) : ∃ F', F ⊆ F' ∧ (u.run es).Standing F' ∧
    ∀ f, f ∉ F' → (u.run es).session.machine.ram.frame? f = u.session.machine.ram.frame? f := by
  induction es generalizing u F with
  | nil => exact ⟨F, subset_rfl, h, fun _ _ => rfl⟩
  | cons e es ih =>
    obtain ⟨F₁, hsub₁, h₁, hram₁⟩ := h.next hf.1
    obtain ⟨F', hsub, h', hram⟩ := ih h₁ hf.2
    refine ⟨F', hsub₁.trans hsub, h', ?_⟩
    intro f hf
    exact (hram f hf).trans (hram₁ f fun hf₁ => hf (hsub hf₁))

end Standing

/-- Boot writes its two frames, or none. -/
theorem Idle.standing_afterBoot (h : u.Idle) : ∃ F, u.afterBoot.Standing F ∧
    ∀ f, f ∉ F → u.afterBoot.session.machine.ram.frame? f = u.session.machine.ram.frame? f := by
  rcases h.boot with ⟨root, table, p₁, pool, log, h₁, h₂, hs⟩ | ⟨e, s', hs, hram, hi⟩
  · obtain ⟨hr, ht⟩ := holds_boot_frames h.pool h.inRam h₁ h₂
    have hb := h.backed h₁ h₂ .windows log
    have hafter : u.afterBoot = u.bootedAt root table pool log := by simp only [afterBoot, hs]; rfl
    rw [hafter]
    refine ⟨_, .backed hb, ?_⟩
    intro f hf
    exact frame?_withBootTables hr ht (fun hfr => hf (hfr ▸ hb.sound.root_mem_owned))
      fun hft => hf (hft ▸ Tables.mem_owned (i := 0) (by rw [table?_bootTables hr, if_pos rfl]))
  · have hafter : u.afterBoot = ⟨s', u.held⟩ := by simp only [afterBoot, hs]
    rw [hafter]
    refine ⟨∅, .idle hi, ?_⟩
    intro f _
    rw [hram]

end Holding

end Paging
