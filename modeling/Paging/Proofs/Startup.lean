import Paging.Boot
import Paging.Proofs.Mirror

/-!
# Booting

`boot` can end in four ways: it refuses a processor without 4 MiB pages, it finds no frame, it finds
one frame and gives that back, or it finds two and installs a directory. In the last case the machine
mirrors `bootTables`: the first slot links the identity table, the last one the directory, and every
other maps the 4 MiB of its own place.
-/

namespace Paging

variable {m : Machine} {root table : Frame} {pool pool' : FramePool}

/-! ## Building a directory -/

/-- The table of the identity map: entry `i` maps frame `i`. -/
def identityTable : PageTable :=
  .ofFn fun i => .leaf (Page.part ⟨0, PageSize.large.pageCount_pos⟩ i) .supervisorRw

/-- The directory in `root`, with the identity table in `table`. -/
def bootDirectory (root table : Frame) : PageDirectory :=
  .ofFn fun i =>
    match bootPlan i with
    | .identitySmall => .link .supervisorRw table
    | .identityLarge => .large .supervisorRw ⟨i.val, i.lt_pageCount⟩
    | .selfMap => .link .supervisorRw root

theorem fill_identityTable (table : Frame) :
    (Machine.fillFrame table fun i => return (← identityEntry i).bits) =
      Machine.writeFrame table identityTable.words := by
  refine Machine.fillFrame_eq table ?_
  intro i
  rw [identityEntry, Machine.fitted_leaf, pure_bind]

theorem fill_bootDirectory (root table : Frame) :
    (Machine.fillFrame root fun i => return (← bootSlot root table i).bits) =
      Machine.writeFrame root (bootDirectory root table).words := by
  refine Machine.fillFrame_eq root ?_
  intro i
  unfold bootSlot
  simp only
  generalize bootPlan i = plan
  cases plan with
  | identitySmall | selfMap => simp only [Machine.fitted_link, pure_bind]
  | identityLarge => simp only [Machine.fitted_large, pure_bind]

theorem assemble_noFrame (h : m.pool.takeLowest? = none) :
    ∃ log, assembleDirectory m = .ok (.error .noFrame) { m with log } := by
  refine ⟨m.log.add .noDirectoryFrame, ?_⟩
  rw [assembleDirectory, Machine.run_bind _ (Machine.run_takeFrame_none h)]
  rfl

theorem assemble_oneFrame (h₁ : m.pool.takeLowest? = some (root, pool)) (h₂ : pool.takeLowest? = none)
    (h₃ : pool.release root = .released pool') : ∃ log, assembleDirectory m = .ok (.error .noFrame)
      { m with pool := pool', taken := m.taken + 1, returned := m.returned + 1, log } := by
  let m₁ : Machine := { m with pool, taken := m.taken + 1, log := m.log.add (.frameTaken root) }
  let m₂ : Machine := { m₁ with log := m₁.log.add .noBootTableFrame }
  have hnone : Machine.takeFrame m₁ = .ok none m₁ := Machine.run_takeFrame_none h₂
  have hlog : (emit .noBootTableFrame : MachineM Unit) m₁ = .ok () m₂ := rfl
  have hback : Machine.returnFrame root m₂ = .ok () { m₂ with
      pool := pool', returned := m₂.returned + 1, log := m₂.log.add (.frameFreed root) } :=
    Machine.run_returnFrame h₃
  refine ⟨m₂.log.add (.frameFreed root), ?_⟩
  rw [assembleDirectory, Machine.run_bind _ (Machine.run_takeFrame_some h₁)]
  simp only
  rw [Machine.run_bind _ hnone]
  simp only
  rw [Machine.run_bind _ hlog, Machine.run_bind _ hback]
  rfl

/-- With less than two frames, what there is is taken and given back. -/
theorem assemble_tooFew (hp : m.pool.Sound) (hfree : m.pool.free < 2) :
    ∃ log, assembleDirectory m = .ok (.error .noFrame)
      { m with taken := m.taken + m.pool.free, returned := m.returned + m.pool.free, log } := by
  cases h₁ : m.pool.takeLowest? with
  | none =>
    rw [(FramePool.takeLowest?_eq_none_iff hp).1 h₁]
    exact assemble_noFrame h₁
  | some fp =>
    obtain ⟨root, p₁⟩ := fp
    obtain ⟨-, hs₁, -, -, hf₁⟩ := FramePool.take_spec hp h₁
    have h₂ : p₁.takeLowest? = none := (FramePool.takeLowest?_eq_none_iff hs₁).2 (by omega)
    rw [show m.pool.free = 1 by omega]
    exact assemble_oneFrame h₁ h₂ (FramePool.release_take hp h₁)

/-- Memory after boot. -/
def Ram.withBootTables (r : Ram) (root table : Frame) : Ram :=
  (r.putFrame table identityTable.words).putFrame root (bootDirectory root table).words

theorem frame?_withBootTables {r : Ram} (hr : r.Holds root) (ht : r.Holds table) {f : Frame} (hfr : f ≠ root)
    (hft : f ≠ table) : (r.withBootTables root table).frame? f = r.frame? f := by
  rw [Ram.withBootTables, Ram.frame?_putFrame ((Ram.holds_putFrame _).2 hr), if_neg hfr,
    Ram.frame?_putFrame ht, if_neg hft]

theorem assemble_done (h₁ : m.pool.takeLowest? = some (root, pool))
    (h₂ : pool.takeLowest? = some (table, pool')) (hr : m.ram.Holds root) (ht : m.ram.Holds table) :
    ∃ log, assembleDirectory m = .ok (.ok ⟨root⟩)
      { m with ram := m.ram.withBootTables root table, pool := pool', taken := m.taken + 2, log } := by
  let m₁ : Machine := { m with pool, taken := m.taken + 1, log := m.log.add (.frameTaken root) }
  let m₂ : Machine := { m₁ with
    pool := pool', taken := m₁.taken + 1, log := m₁.log.add (.frameTaken table) }
  let m₃ : Machine := { m₂ with ram := m.ram.putFrame table identityTable.words }
  have htake : Machine.takeFrame m₁ = .ok (some table) m₂ := Machine.run_takeFrame_some h₂
  have hw₁ : Machine.writeFrame table identityTable.words m₂ = .ok () m₃ :=
    Machine.run_writeFrame (m := m₂) ht _
  have hw₂ : Machine.writeFrame root (bootDirectory root table).words m₃ =
      .ok () { m₃ with ram := m.ram.withBootTables root table } :=
    Machine.run_writeFrame (m := m₃) ((Ram.holds_putFrame _).2 hr) _
  refine ⟨m₃.log.add (.directoryBuilt root table), ?_⟩
  rw [assembleDirectory, Machine.run_bind _ (Machine.run_takeFrame_some h₁)]
  simp only
  rw [Machine.run_bind _ htake]
  simp only
  rw [fill_identityTable, fill_bootDirectory, Machine.run_bind _ hw₁, Machine.run_bind _ hw₂]
  rfl

/-! ## The ways to end -/

theorem run_hasLargePages {b : Bool} (h : m.cpu.hasLargePages = b) :
    (MonadProcessor.hasLargePages : MachineM Bool) m = .ok b m := by
  rw [← h]
  rfl

theorem boot_refused (h : m.cpu.hasLargePages = false) :
    ∃ log, boot m = .ok (.error (.install .noLargePages)) { m with log } := by
  refine ⟨m.log.add .bootRefused, ?_⟩
  rw [boot, Machine.run_bind _ (run_hasLargePages h)]
  rfl

section Supported

variable (h : m.cpu.hasLargePages = true)

include h

theorem install_done (r : RootRecord) (d : BuiltDirectory) :
    (r.install d : MachineM _) m = .ok (.ok r.current, ⟨some ⟨d.root⟩⟩)
      { m with
        cpu := ((m.cpu.execute .largePagesOn).execute (.setRoot d.root)).execute .pagingOn
        calls := ((m.calls.push .largePagesOn).push (.setRoot d.root)).push .pagingOn
        log := m.log.add (.installed d.root) } := by
  rw [RootRecord.install, Machine.run_bind _ (run_hasLargePages h), if_pos rfl]
  rfl

theorem boot_of_error {e : BootRefusal} {m' : Machine}
    (hx : assembleDirectory { m with log := m.log.add .bootStarted } = .ok (.error e) m') :
    boot m = .ok (.error e) m' := by
  have hlog : (emit .bootStarted : MachineM Unit) m =
    .ok () { m with log := m.log.add .bootStarted } := rfl
  rw [boot, Machine.run_bind _ (run_hasLargePages h), if_pos rfl, Machine.run_bind _ hlog, Machine.run_bind _ hx]
  rfl

theorem boot_of_ok {d : BuiltDirectory} {m' : Machine}
    (hx : assembleDirectory { m with log := m.log.add .bootStarted } = .ok (.ok d) m')
    (hm : m'.cpu = m.cpu) :
    ∃ log, boot m = .ok (.ok ⟨some ⟨d.root⟩⟩)
      { m' with
        cpu := ((m'.cpu.execute .largePagesOn).execute (.setRoot d.root)).execute .pagingOn
        calls := ((m'.calls.push .largePagesOn).push (.setRoot d.root)).push .pagingOn, log } := by
  have hlog : (emit .bootStarted : MachineM Unit) m =
    .ok () { m with log := m.log.add .bootStarted } := rfl
  refine ⟨(m'.log.add (.installed d.root)).add .bootDone, ?_⟩
  rw [boot, Machine.run_bind _ (run_hasLargePages h), if_pos rfl, Machine.run_bind _ hlog, Machine.run_bind _ hx]
  simp only
  rw [Machine.run_bind _ (install_done (hm ▸ h) {} d)]
  rfl

theorem boot_tooFew (hp : m.pool.Sound) (hfree : m.pool.free < 2) : ∃ log, boot m = .ok (.error .noFrame)
    { m with taken := m.taken + m.pool.free, returned := m.returned + m.pool.free, log } := by
  obtain ⟨log, hx⟩ := assemble_tooFew (m := { m with log := m.log.add .bootStarted }) hp hfree
  exact ⟨log, boot_of_error h hx⟩

theorem boot_done (h₁ : m.pool.takeLowest? = some (root, pool))
    (h₂ : pool.takeLowest? = some (table, pool')) (hr : m.ram.Holds root) (ht : m.ram.Holds table) :
    ∃ log, boot m = .ok (.ok ⟨some ⟨root⟩⟩)
      { m with
        ram := m.ram.withBootTables root table
        cpu := ((m.cpu.execute .largePagesOn).execute (.setRoot root)).execute .pagingOn
        pool := pool', taken := m.taken + 2
        calls := ((m.calls.push .largePagesOn).push (.setRoot root)).push .pagingOn, log } := by
  obtain ⟨log, hx⟩ := assemble_done (m := { m with log := m.log.add .bootStarted }) h₁ h₂ hr ht
  exact boot_of_ok h hx rfl

end Supported

/-! ## What boot leaves -/

/-- The tables after a boot of `m` with the directory in `root` and the first table in `table`. -/
def bootTables (m : Machine) (root table : Frame) (pool : FramePool) : Tables where
  ram := m.ram.withBootTables root table
  root := root
  pool := pool
  taken := m.taken + 2
  returned := m.returned
  calls := ((m.calls.push .largePagesOn).push (.setRoot root)).push .pagingOn

theorem bootDirectory_get (root table : Frame) (i : SlotIndex) : (bootDirectory root table).get i =
    if i = 0 then .link .supervisorRw table
    else if i = selfMapSlot then .link .supervisorRw root
    else .large .supervisorRw i.identity := by
  simp only [bootDirectory, PageDirectory.get_ofFn, bootPlan, Fin.val_eq_zero_iff]
  by_cases h0 : i = 0
  · rw [if_pos h0, if_pos h0]
  · by_cases hs : i = selfMapSlot
    · rw [if_neg h0, if_pos hs, if_neg h0, if_pos hs]
    · rw [if_neg h0, if_neg hs, if_neg h0, if_neg hs]; rfl

theorem table?_bootDirectory (root table : Frame) (i : SlotIndex) : ((bootDirectory root table).get i).table? =
    if i = 0 then some table else if i = selfMapSlot then some root else none := by
  rw [bootDirectory_get]
  split
  · rw [DirEntry.table?_link]
  · split
    · rw [DirEntry.table?_link]
    · rw [DirEntry.table?_large]

theorem table?_bootDirectory_selfMap (root table : Frame) :
    ((bootDirectory root table).get selfMapSlot).table? = some root := by
  rw [table?_bootDirectory, if_neg (by decide), if_pos rfl]

section BootTables

variable (hr : m.ram.Holds root) (ht : m.ram.Holds table) (hne : table ≠ root)

include hr

theorem slot_bootTables (i : SlotIndex) :
    (bootTables m root table pool).slot i = (bootDirectory root table).get i := by
  simp only [Tables.slot, bootTables, Ram.withBootTables,
    Ram.word?_putFrame ((Ram.holds_putFrame _).2 hr), if_true]
  rfl

theorem table?_bootTables (i : SlotIndex) : (bootTables m root table pool).table? i =
    if i = 0 then some table else if i = selfMapSlot then some root else none := by
  rw [Tables.table?, slot_bootTables hr, table?_bootDirectory]

theorem owned_bootTables_subset : (bootTables m root table pool).owned ⊆ {root, table} := by
  rintro f ⟨i, hf⟩
  rw [table?_bootTables hr] at hf
  split at hf
  · exact Or.inr (Option.some.inj hf).symm
  · split at hf
    · exact Or.inl (Option.some.inj hf).symm
    · cases hf

theorem backed_bootTables : (bootTables m root table pool).backed = {0, selfMapSlot} := by
  ext i
  simp only [Tables.backed, table?_bootTables hr, Finset.mem_filter, Finset.mem_univ, true_and,
    Finset.mem_insert, Finset.mem_singleton]
  split
  · rename_i h0
    simp [h0]
  · rename_i h0
    split
    · rename_i hs
      simp [hs]
    · rename_i hs
      simp [h0, hs]

include ht hne

/-- The first table maps every page to the frame of the same number. -/
theorem entry_bootTables (k : EntryIndex) : (bootTables m root table pool).entry table k =
    .leaf (Page.part ⟨0, PageSize.large.pageCount_pos⟩ k) .supervisorRw := by
  simp only [Tables.entry, bootTables, Ram.withBootTables,
    Ram.word?_putFrame ((Ram.holds_putFrame _).2 hr), hne, if_false, Ram.word?_putFrame ht, if_true]
  exact PageTable.get_ofFn _ k

end BootTables

section Sound

variable (hp : m.pool.Sound) (hram : ∀ f, (m.pool.place? f).isSome → m.ram.Holds f)
  (h₁ : m.pool.takeLowest? = some (root, pool)) (h₂ : pool.takeLowest? = some (table, pool'))

include hp h₁ h₂

/-- The two frames of boot are different, were free and are live afterwards. -/
theorem boot_frames : table ≠ root ∧ m.pool.isLive root = false ∧ m.pool.isLive table = false ∧
    pool'.Sound ∧ (∀ g, pool'.isLive g = if g = table ∨ g = root then true else m.pool.isLive g) ∧
    ∀ g, pool'.place? g = m.pool.place? g := by
  obtain ⟨hd₁, hs₁, hl₁, hp₁, -⟩ := FramePool.take_spec hp h₁
  obtain ⟨hd₂, hs₂, hl₂, hp₂, -⟩ := FramePool.take_spec hs₁ h₂
  have hne : table ≠ root := by
    rintro rfl
    rw [hl₁, if_pos rfl] at hd₂; cases hd₂
  refine ⟨hne, hd₁, ?_, hs₂, ?_, ?_⟩
  · rw [hl₁, if_neg hne] at hd₂; exact hd₂
  · intro g
    rw [hl₂, hl₁]
    by_cases hg : g = table
    · rw [if_pos hg, if_pos (Or.inl hg)]
    · simp only [hg, if_false, false_or]
  · intro g
    rw [hp₂, hp₁]

include hram

theorem holds_boot_frames : m.ram.Holds root ∧ m.ram.Holds table := by
  obtain ⟨-, -, -, -, hlive, hplace⟩ := boot_frames hp h₁ h₂
  have hmem (g : Frame) (hg : g = table ∨ g = root) : m.ram.Holds g :=
    hram g (by rw [← hplace]; exact FramePool.place?_of_isLive (by rw [hlive, if_pos hg]))
  exact ⟨hmem root (Or.inr rfl), hmem table (Or.inl rfl)⟩

theorem bootTables_sound : (bootTables m root table pool').Sound := by
  obtain ⟨hne, -, -, hsound, hlive, hplace⟩ := boot_frames hp h₁ h₂
  obtain ⟨hr, ht⟩ := holds_boot_frames hp hram h₁ h₂
  have htable (i : SlotIndex) : (bootTables m root table pool').table? i =
    if i = 0 then some table else if i = selfMapSlot then some root else none := table?_bootTables hr i
  refine ⟨hsound, ?_, ?_, ?_, ?_⟩
  · intro f hf
    exact (Ram.holds_putFrame _).2 ((Ram.holds_putFrame _).2 (hram f (hplace f ▸ hf)))
  · intro i
    rw [slot_bootTables hr, bootDirectory_get]
    by_cases h0 : i = 0
    · rw [if_pos h0, h0]; exact .bootTable table
    · by_cases hs : i = selfMapSlot
      · rw [if_neg h0, if_pos hs, hs]; exact .selfMap
      · rw [if_neg h0, if_neg hs]; exact .large h0 hs
  · intro i f hf
    show pool'.isLive f
    rw [htable] at hf
    rw [hlive, if_pos]
    split at hf
    · exact Or.inl (Option.some.inj hf).symm
    · split at hf
      · exact Or.inr (Option.some.inj hf).symm
      · cases hf
  · intro i j f hi hj
    rw [htable] at hi hj
    grind

end Sound

/-- Two free frames of a pool in memory are frames that boot can write. -/
theorem exists_boot_frames (hp : m.pool.Sound) (hram : ∀ f, (m.pool.place? f).isSome → m.ram.Holds f)
    (hfree : 2 ≤ m.pool.free) : ∃ root p₁ table pool, m.pool.takeLowest? = some (root, p₁) ∧
      p₁.takeLowest? = some (table, pool) ∧ m.ram.Holds root ∧ m.ram.Holds table := by
  obtain ⟨root, p₁, table, pool, h₁, h₂⟩ := FramePool.exists_take_two hp hfree
  obtain ⟨hr, ht⟩ := holds_boot_frames hp hram h₁ h₂
  exact ⟨root, p₁, table, pool, h₁, h₂, hr, ht⟩

/-! ## Twins -/

/-- A twin is refused in the same way, or boots with the same two frames. These are written as a whole,
so that nothing is left of what they held. -/
theorem Machine.Twin.boot {n : Machine} (h : m.Twin n ∅) (hp : m.pool.Sound)
    (hram : ∀ f, (m.pool.place? f).isSome → m.ram.Holds f) :
    (∃ e m' n', Paging.boot m = .ok (.error e) m' ∧ Paging.boot n = .ok (.error e) n' ∧ m'.Twin n' ∅) ∨
    ∃ root table p₁ pool m' n', m.pool.takeLowest? = some (root, p₁) ∧ p₁.takeLowest? = some (table, pool) ∧
      Paging.boot m = .ok (.ok ⟨some ⟨root⟩⟩) m' ∧ Paging.boot n = .ok (.ok ⟨some ⟨root⟩⟩) n' ∧
        m'.Twin n' {root, table} := by
  have hcpu := h.cpu
  have hpool := h.pool
  cases hpse : m.cpu.hasLargePages with
  | false =>
    obtain ⟨log, hm⟩ := boot_refused hpse
    obtain ⟨log', hn⟩ := boot_refused (m := n) (hcpu ▸ hpse)
    exact Or.inl ⟨_, _, _, hm, hn, { h with }⟩
  | true =>
    have hpse' : n.cpu.hasLargePages = true := hcpu ▸ hpse
    rcases Nat.lt_or_ge m.pool.free 2 with hfree | hfree
    · obtain ⟨log, hm⟩ := boot_tooFew hpse hp hfree
      obtain ⟨log', hn⟩ := boot_tooFew hpse' (hpool ▸ hp) (hpool ▸ hfree)
      refine Or.inl ⟨_, _, _, hm, hn, ?_⟩
      exact { h with
        taken := by rw [h.taken, hpool]
        returned := by rw [h.returned, hpool] }
    · obtain ⟨root, p₁, table, pool, h₁, h₂, hr, ht⟩ := exists_boot_frames hp hram hfree
      obtain ⟨log, hm⟩ := boot_done hpse h₁ h₂ hr ht
      obtain ⟨log', hn⟩ := boot_done hpse' (hpool ▸ h₁) h₂ ((h.holds root).2 hr) ((h.holds table).2 ht)
      have hwritten := (h.putFrame ht identityTable.words).putFrame ((Ram.holds_putFrame _).2 hr)
        (bootDirectory root table).words
      refine Or.inr ⟨root, table, p₁, pool, _, _, h₁, h₂, hm, hn, ?_⟩
      exact { hwritten with
        cpu := by rw [hcpu]
        pool := rfl
        taken := congrArg (· + 2) h.taken
        calls := by rw [h.calls]
        frames := fun f hf => hwritten.frames f (hf.imp_right Or.inl) }

end Paging
