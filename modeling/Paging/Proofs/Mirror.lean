import Paging.Proofs.Cache
import Paging.Proofs.Checks

/-!
# Machines that stand behind tables

A machine mirrors tables if it has their memory, pool and calls, has paging on and walks their directory,
has cached nothing outside of a set of translations, and saw the right frame in every window that it used.
Its twins are the machines that differ from it in memory alone, outside of a set of frames that were
written.

`Computes` says what an action does to such a machine in terms of the tables alone: it ends without a
fault, with which value, and what tables, cached translations and written frames stand behind the
machine then; on a twin it ends with the same value, and in a twin. There is one rule for each
primitive action; `Computes.bind` puts them together.
-/

namespace Paging

/-- What was seen at the page is the frame that the directory word behind the page named. -/
def WindowUse.Right (u : WindowUse) : Prop :=
  ∃ w, u.word = some w ∧ w &&& 0x01 ≠ 0 ∧ Walk.frameOf w = u.frame

/-- The page is the window of a slot, and the last window showed the directory in `root`. -/
def WindowUse.OfTable (u : WindowUse) (root : Frame) : Prop :=
  ∃ i, u.page = (tableView i).page .small ∧ (i = selfMapSlot → u.frame = root)

structure Machine.Mirrors (m : Machine) (t : Tables) (A : Translations) : Prop where
  ram : m.ram = t.ram
  paging : m.cpu.paging = true
  root : m.cpu.root = some t.root
  pool : m.pool = t.pool
  taken : m.taken = t.taken
  returned : m.returned = t.returned
  calls : m.calls = t.calls
  cached : m.cpu.tlb.Within A
  uses : ∀ u ∈ m.uses, u.Right
  windows : ∀ u ∈ m.uses, u.OfTable t.root

/-- `n` differs from `m` in what memory holds outside of the frames `F`, perhaps in the records of
windows and events, and in nothing else. -/
structure Machine.Twin (m n : Machine) (F : Set Frame) : Prop where
  cpu : n.cpu = m.cpu
  pool : n.pool = m.pool
  taken : n.taken = m.taken
  returned : n.returned = m.returned
  calls : n.calls = m.calls
  holds : ∀ f, n.ram.Holds f ↔ m.ram.Holds f
  frames : ∀ f ∈ F, n.ram.frame? f = m.ram.frame? f

/-- What is known of a machine: the tables that it mirrors, the translations that it may have cached,
and the frames that were written, in which nothing is left of what memory held at first. -/
structure Knowledge where
  tables : Tables
  cached : Translations
  written : Set Frame

/-- On every machine of which `k` is known, the action ends with `a`, and `k'` is known then. A twin
of the machine does the same. -/
def Computes {α : Type} (x : MachineM α) (k : Knowledge) (a : α) (k' : Knowledge) : Prop :=
  ∀ m : Machine, m.Mirrors k.tables k.cached → ∃ m', x m = .ok a m' ∧ m'.Mirrors k'.tables k'.cached ∧
    ∀ n : Machine, m.Twin n k.written → ∃ n', x n = .ok a n' ∧ m'.Twin n' k'.written

variable {α β : Type} {t t' : Tables} {A A' B : Translations} {F F' G : Set Frame} {k k₁ k' : Knowledge}
  {a : α} {b : β} {f : Frame} {i : SlotIndex}

/-! ## Single actions -/

namespace Machine

variable {m m₁ : Machine}

theorem run_bind {x : MachineM α} (g : α → MachineM β) (h : x m = .ok a m₁) : (x >>= g) m = g a m₁ := by
  show EStateM.bind x g m = _
  simp only [EStateM.bind, h]

@[simp] theorem run_get_bind (g : Machine → MachineM β) (m : Machine) : (get >>= g) m = g m m := rfl

@[simp] theorem run_modify_bind (f : Machine → Machine) (g : Unit → MachineM β) (m : Machine) :
    ((modify f : MachineM Unit) >>= g) m = g () (f m) := rfl

theorem run_readWord {j : Fin 1024} {w : UInt32} (h : m.ram.word? f j = some w) :
    readWord f j m = .ok w m := by
  simp only [readWord, run_get_bind, h]
  rfl

theorem run_readFrame {ws : FrameWords} (h : m.ram.frame? f = some ws) : readFrame f m = .ok ws m := by
  simp only [readFrame, run_get_bind, h]
  rfl

theorem run_writeWord (h : m.ram.Holds f) (j : Fin 1024) (w : UInt32) :
    writeWord f j w m = .ok () { m with ram := m.ram.putWord f j w } := by
  show (if m.ram.Holds f then (modify fun m => { m with ram := m.ram.putWord f j w } : MachineM Unit)
    else _) m = _
  rw [if_pos h]
  rfl

theorem run_writeFrame (h : m.ram.Holds f) (ws : FrameWords) :
    writeFrame f ws m = .ok () { m with ram := m.ram.putFrame f ws } := by
  show (if m.ram.Holds f then (modify fun m => { m with ram := m.ram.putFrame f ws } : MachineM Unit)
    else _) m = _
  rw [if_pos h]
  rfl

theorem run_inMemory (h : m.ram.Holds f) : inMemory f m = .ok f m := by
  show (if m.ram.Holds f then (pure f : MachineM Frame) else _) m = _
  rw [if_pos h]
  rfl

/-- The machine after it noted that `f` is seen at `page`. -/
def noted (m : Machine) (page : Page .virtual .small) (f : Frame) : Machine :=
  { m with uses := m.uses.push ⟨page, f, m.cpu.root.bind fun root => m.ram.word? root page.place⟩ }

theorem run_window (hp : m.cpu.paging = true) (va : VirtualAddress) : window va m = resolve va m := by
  simp only [window, run_get_bind, hp, if_true]

/-- A page that is cached is seen as it was cached. -/
theorem run_resolve_cached {va : VirtualAddress} (hc : m.cpu.tlb.frame? (va.page .small) = some f)
    (h : m.ram.Holds f) : resolve va m = .ok f (m.noted (va.page .small) f) := by
  have huse : noteUse (va.page .small) f m = .ok () (m.noted (va.page .small) f) := rfl
  have hmem : inMemory f (m.noted (va.page .small) f) = .ok f (m.noted (va.page .small) f) :=
    run_inMemory h
  simp only [resolve, run_get_bind, hc, run_bind _ huse, hmem]

/-- Any other page is walked, and cached. -/
theorem run_resolve_walked {va : VirtualAddress} {root : Frame} {slot entry : UInt32}
    (hc : m.cpu.tlb.frame? (va.page .small) = none) (hr : m.cpu.root = some root)
    (hw : m.ram.walk root va = .small slot entry) (h : m.ram.Holds (Walk.frameOf entry)) :
    resolve va m = .ok (Walk.frameOf entry)
      (noted { m with cpu := { m.cpu with
        tlb := m.cpu.tlb.insertSmall (va.page .small) (Walk.frameOf entry) } }
        (va.page .small) (Walk.frameOf entry)) := by
  let m₁ : Machine := { m with cpu := { m.cpu with
    tlb := m.cpu.tlb.insertSmall (va.page .small) (Walk.frameOf entry) } }
  have huse : noteUse (va.page .small) (Walk.frameOf entry) m₁ =
    .ok () (m₁.noted (va.page .small) (Walk.frameOf entry)) := rfl
  have hmem : inMemory (Walk.frameOf entry) (m₁.noted (va.page .small) (Walk.frameOf entry)) =
    .ok (Walk.frameOf entry) (m₁.noted (va.page .small) (Walk.frameOf entry)) := run_inMemory h
  simp only [resolve, run_get_bind, hc, hr, hw, run_modify_bind]
  rw [← hr]
  exact (run_bind (fun _ => inMemory (Walk.frameOf entry)) huse).trans hmem

theorem run_takeFrame_none (h : m.pool.takeLowest? = none) : takeFrame m = .ok none m := by
  simp only [takeFrame, run_get_bind, h]
  rfl

theorem run_takeFrame_some {pool : FramePool} (h : m.pool.takeLowest? = some (f, pool)) :
    takeFrame m =
      .ok (some f) { m with pool, taken := m.taken + 1, log := m.log.add (.frameTaken f) } := by
  simp only [takeFrame, run_get_bind, h]
  rfl

/-- Giving back a frame that is live. -/
theorem run_returnFrame {pool : FramePool} (h : m.pool.release f = .released pool) : returnFrame f m =
    .ok () { m with pool, returned := m.returned + 1, log := m.log.add (.frameFreed f) } := by
  simp only [returnFrame, run_modify_bind, run_get_bind, h]
  rfl

end Machine

namespace Machine.Mirrors

variable {m : Machine}

theorem mono (h : m.Mirrors t A) (hA : A ≤ B) : m.Mirrors t B :=
  { h with cached := h.cached.mono hA }

theorem recache (h : m.Mirrors t A) {tlb : Tlb} (hb : tlb.Within B) :
    ({ m with cpu := { m.cpu with tlb } } : Machine).Mirrors t B :=
  { h with paging := h.paging, root := h.root, cached := hb }

/-- Seeing the table of a slot at its window is right. -/
theorem noted (h : m.Mirrors t A) (ht : t.Sound) (hf : t.table? i = some f) :
    (m.noted ((tableView i).page .small) f).Mirrors t A := by
  obtain ⟨hp, -, hfr⟩ := DirEntry.of_table?_eq_some hf
  refine { h with uses := ?_, windows := ?_ }
  · intro u hu
    rcases Array.mem_push.1 hu with hu | rfl
    · exact h.uses u hu
    · refine ⟨(t.slot i).bits, ?_, hp, hfr⟩
      simp only [h.root, h.ram, Option.bind_some]
      rw [Address.place_page, entryIndex_tableView, ht.word?_slot]
  · intro u hu
    rcases Array.mem_push.1 hu with hu | rfl
    · exact h.windows u hu
    · refine ⟨i, rfl, ?_⟩
      rintro rfl
      exact Option.some.inj (hf.symm.trans ht.table?_selfMap)

end Machine.Mirrors

namespace Machine.Twin

variable {m n : Machine}

theorem mono (h : m.Twin n F) (hG : G ⊆ F) : m.Twin n G :=
  { h with frames := fun f hf => h.frames f (hG hf) }

theorem word? (h : m.Twin n F) (hf : f ∈ F) (j : Fin 1024) : n.ram.word? f j = m.ram.word? f j :=
  congrArg (Option.map fun ws => ws[j]) (h.frames f hf)

/-- A word may be written anywhere: where the frames differed, they still may. -/
theorem putWord (h : m.Twin n F) (hf : m.ram.Holds f) (j : Fin 1024) (w : UInt32) :
    Machine.Twin { m with ram := m.ram.putWord f j w } { n with ram := n.ram.putWord f j w } F := by
  refine { h with holds := ?_, frames := ?_ }
  · intro g
    rw [Ram.holds_putWord, Ram.holds_putWord]
    exact h.holds g
  · intro g hg
    rw [Ram.frame?_putWord hf, Ram.frame?_putWord ((h.holds f).2 hf)]
    split
    · rename_i hgf
      rw [h.frames f (hgf ▸ hg)]
    · exact h.frames g hg

/-- A frame that is written as a whole is the same afterwards. -/
theorem putFrame (h : m.Twin n F) (hf : m.ram.Holds f) (ws : FrameWords) :
    Machine.Twin { m with ram := m.ram.putFrame f ws } { n with ram := n.ram.putFrame f ws }
      (insert f F) := by
  refine { h with holds := ?_, frames := ?_ }
  · intro g
    rw [Ram.holds_putFrame, Ram.holds_putFrame]
    exact h.holds g
  · intro g hg
    rw [Ram.frame?_putFrame hf, Ram.frame?_putFrame ((h.holds f).2 hf)]
    split
    · rfl
    · rename_i hgf
      exact h.frames g (hg.resolve_left hgf)

end Machine.Twin

/-- A walk is the same in a twin if it reads written frames alone. -/
theorem Machine.Mirrors.walk_twin {m n : Machine} {va : VirtualAddress} (hm : m.Mirrors t A)
    (hn : m.Twin n F) (h : t.Sound) (hroot : t.root ∈ F)
    (htable : ∀ f, t.table? va.slotIndex = some f → f ∈ F) :
    n.ram.walk t.root va = m.ram.walk t.root va := by
  unfold Ram.walk
  rw [hn.word? hroot, hm.ram, h.word?_slot]
  simp only
  split
  · rfl
  · rename_i hp
    split
    · rfl
    · rename_i hs
      have hf := htable _ (DirEntry.table?_eq_some_of_bits hp (by simpa using hs))
      rw [hn.word? hf, hm.ram]

namespace Computes

theorem pure (a : α) : Computes (pure a) k a k := fun m hm => ⟨m, rfl, hm, fun n hn => ⟨n, rfl, hn⟩⟩

theorem bind {x : MachineM α} {g : α → MachineM β} (hx : Computes x k a k₁)
    (hg : Computes (g a) k₁ b k') : Computes (x >>= g) k b k' := by
  intro m hm
  obtain ⟨m₁, h₁, hm₁, htwin₁⟩ := hx m hm
  obtain ⟨m', h', hm', htwin'⟩ := hg m₁ hm₁
  refine ⟨m', (Machine.run_bind g h₁).trans h', hm', ?_⟩
  intro n hn
  obtain ⟨n₁, hx₁, hn₁⟩ := htwin₁ n hn
  obtain ⟨n', hx', hn'⟩ := htwin' n₁ hn₁
  exact ⟨n', (Machine.run_bind g hx₁).trans hx', hn'⟩

/-- More translations may be cached afterwards, and fewer frames be known as written. -/
theorem weaken {x : MachineM α} (h : Computes x k a ⟨t', A', F'⟩) (hA : A' ≤ B) (hG : G ⊆ F') :
    Computes x k a ⟨t', B, G⟩ := by
  intro m hm
  obtain ⟨m', hx, hm', htwin⟩ := h m hm
  refine ⟨m', hx, hm'.mono hA, ?_⟩
  intro n hn
  obtain ⟨n', hx', hn'⟩ := htwin n hn
  exact ⟨n', hx', hn'.mono hG⟩

/-- An action that is a value after all, as checks are that do not fail. -/
theorem of_eq {x : MachineM α} (hx : x = Pure.pure a) : Computes x k a k := hx ▸ .pure a

theorem emit (e : LogEvent) : Computes (emit e) k () k :=
  fun _ hm => ⟨_, rfl, { hm with }, fun _ hn => ⟨_, rfl, { hn with }⟩⟩

theorem invalidate (p : Page .virtual .small) :
    Computes (Machine.invalidate p) ⟨t, A, F⟩ () ⟨t.call (.invalidate p), A.drop p, F⟩ := by
  intro m hm
  refine ⟨_, rfl, { hm with
    paging := hm.paging, root := hm.root, calls := ?_, cached := hm.cached.drop p }, ?_⟩
  · show m.calls.push _ = t.calls.push _
    rw [hm.calls]
  · intro n hn
    refine ⟨_, rfl, { hn with cpu := ?_, calls := ?_ }⟩
    · exact congrArg (fun c => c.execute (.invalidate p)) hn.cpu
    · exact congrArg (fun c => c.push (.invalidate p)) hn.calls

/-! ## Memory -/

theorem readWord {j : Fin 1024} {w : UInt32} (hf : f ∈ F) (h : t.ram.word? f j = some w) :
    Computes (Machine.readWord f j) ⟨t, A, F⟩ w ⟨t, A, F⟩ := by
  intro m hm
  have hword : m.ram.word? f j = some w := hm.ram ▸ h
  refine ⟨m, Machine.run_readWord hword, hm, ?_⟩
  intro n hn
  exact ⟨n, Machine.run_readWord ((hn.word? hf j).trans hword), hn⟩

theorem writeWord (h : t.ram.Holds f) (j : Fin 1024) (w : UInt32) :
    Computes (Machine.writeWord f j w) ⟨t, A, F⟩ () ⟨{ t with ram := t.ram.putWord f j w }, A, F⟩ := by
  intro m hm
  have hram : m.ram.Holds f := hm.ram ▸ h
  refine ⟨_, Machine.run_writeWord hram j w, { hm with ram := by rw [hm.ram] }, ?_⟩
  intro n hn
  exact ⟨_, Machine.run_writeWord ((hn.holds f).2 hram) j w, hn.putWord hram j w⟩

theorem readFrame {ws : FrameWords} (hf : f ∈ F) (h : t.ram.frame? f = some ws) :
    Computes (Machine.readFrame f) ⟨t, A, F⟩ ws ⟨t, A, F⟩ := by
  intro m hm
  have hframe : m.ram.frame? f = some ws := hm.ram ▸ h
  refine ⟨m, Machine.run_readFrame hframe, hm, ?_⟩
  intro n hn
  exact ⟨n, Machine.run_readFrame ((hn.frames f hf).trans hframe), hn⟩

theorem writeFrame (h : t.ram.Holds f) (ws : FrameWords) : Computes (Machine.writeFrame f ws)
    ⟨t, A, F⟩ () ⟨{ t with ram := t.ram.putFrame f ws }, A, insert f F⟩ := by
  intro m hm
  have hram : m.ram.Holds f := hm.ram ▸ h
  refine ⟨_, Machine.run_writeFrame hram ws, { hm with ram := by rw [hm.ram] }, ?_⟩
  intro n hn
  exact ⟨_, Machine.run_writeFrame ((hn.holds f).2 hram) ws, hn.putFrame hram ws⟩

/-! ## The pool -/

theorem takeFrame_none (h : t.pool.takeLowest? = none) :
    Computes Machine.takeFrame ⟨t, A, F⟩ none ⟨t, A, F⟩ := by
  intro m hm
  have hpool : m.pool.takeLowest? = none := hm.pool ▸ h
  refine ⟨m, Machine.run_takeFrame_none hpool, hm, ?_⟩
  intro n hn
  exact ⟨n, Machine.run_takeFrame_none (hn.pool ▸ hpool), hn⟩

theorem takeFrame_some {pool : FramePool} (h : t.pool.takeLowest? = some (f, pool)) :
    Computes Machine.takeFrame ⟨t, A, F⟩ (some f) ⟨t.took pool, A, F⟩ := by
  intro m hm
  have hpool : m.pool.takeLowest? = some (f, pool) := hm.pool ▸ h
  refine ⟨_, Machine.run_takeFrame_some hpool, { hm with pool := rfl, taken := by rw [hm.taken]; rfl }, ?_⟩
  intro n hn
  exact ⟨_, Machine.run_takeFrame_some (hn.pool ▸ hpool),
    { hn with pool := rfl, taken := by rw [hn.taken] }⟩

/-! ## Windows -/

/-- The window of a table shows the table, provided that nothing else is cached for it. A walk that is
needed for this is cached; it reads the directory alone. -/
theorem window (h : t.Sound) (hf : t.table? i = some f) (hroot : t.root ∈ F)
    (hsmall : ∀ g, A.small ((tableView i).page .small) g → g = f)
    (hlarge : ∀ q, ¬A.large (SlotIndex.region selfMapSlot) q) :
    Computes (Machine.window (tableView i)) ⟨t, A, F⟩ f ⟨t, A.add ((tableView i).page .small) f, F⟩ := by
  intro m hm
  have hadd : A ≤ A.add ((tableView i).page .small) f := ⟨fun _ _ h => Or.inr h, fun _ _ h => h⟩
  have hram : m.ram.Holds f := by rw [hm.ram]; exact h.holds_table hf
  rw [Machine.run_window hm.paging]
  cases hc : m.cpu.tlb.frame? ((tableView i).page .small) with
  | some g =>
    have hg : g = f := by
      rcases hm.cached.of_frame? hc with hs | ⟨q, hq, -⟩
      · exact hsmall g hs
      · rw [Address.region_page, slotIndex_tableView] at hq
        exact absurd hq (hlarge q)
    subst hg
    refine ⟨_, Machine.run_resolve_cached hc hram, (hm.noted h hf).mono hadd, ?_⟩
    intro n hn
    rw [Machine.run_window (hn.cpu ▸ hm.paging)]
    exact ⟨_, Machine.run_resolve_cached (hn.cpu ▸ hc) ((hn.holds _).2 hram), { hn with }⟩
  | none =>
    obtain ⟨hp, -, rfl⟩ := DirEntry.of_table?_eq_some hf
    have hwalk : m.ram.walk t.root (tableView i) = .small (t.slot selfMapSlot).bits (t.slot i).bits := by
      rw [hm.ram]
      have := Tables.walk_window h (slotIndex_tableView i)
      rwa [entryIndex_tableView, if_pos ((DirEntry.present_iff _).2 hp)] at this
    refine ⟨_, Machine.run_resolve_walked hc hm.root hwalk hram,
      (hm.recache (hm.cached.insertSmall _ _)).noted h hf, ?_⟩
    intro n hn
    have hwalk' : n.ram.walk t.root (tableView i) = m.ram.walk t.root (tableView i) := by
      apply hm.walk_twin hn h hroot
      intro g hg
      rw [slotIndex_tableView, h.table?_selfMap] at hg
      cases hg
      exact hroot
    rw [Machine.run_window (hn.cpu ▸ hm.paging)]
    exact ⟨_, Machine.run_resolve_walked (hn.cpu ▸ hc) (hn.cpu ▸ hm.root) (hwalk'.trans hwalk)
      ((hn.holds _).2 hram), { hn with cpu := by rw [hn.cpu]; rfl }⟩

end Computes

/-- What the processor caches by itself is vouched for. -/
theorem Machine.Mirrors.cacheWalk {m : Machine} {s : Scope} (h : m.Mirrors t (t.translations s))
    (ht : t.Sound) (va : VirtualAddress) : (Machine.cacheWalk va m).Mirrors t (t.translations s) := by
  have hwalk : (m.cpu.root.map fun root => m.ram.walk root va) = some (t.walk va) := by
    rw [h.root, h.ram]; rfl
  unfold Machine.cacheWalk
  rw [hwalk]
  split
  · rename_i w e hw
    have hgives : t.Gives (va.page .small) (Walk.frameOf e) :=
      ⟨w, e, (Tables.walk_page ht va).trans (Option.some.inj hw), rfl⟩
    have hmem : (t.translations s).small (va.page .small) (Walk.frameOf e) := fun _ => Or.inl hgives
    have hb := h.cached.insertSmall (va.page .small) (Walk.frameOf e)
    rw [Translations.add_of_mem hmem] at hb
    exact h.recache hb
  · rename_i w hw
    have hgives : t.GivesLarge (va.page .large) (Walk.pageOf w) :=
      ⟨w, Tables.walk_region ht (Option.some.inj hw), rfl⟩
    exact h.recache (h.cached.insertLarge fun _ => hgives)
  · exact h

/-- A twin caches the same by itself. -/
theorem Machine.Twin.cacheWalk {m n : Machine} (hn : m.Twin n t.owned) (hm : m.Mirrors t A) (h : t.Sound)
    (va : VirtualAddress) : (Machine.cacheWalk va m).Twin (Machine.cacheWalk va n) t.owned := by
  have hwalk : (n.cpu.root.map fun root => n.ram.walk root va) =
      m.cpu.root.map fun root => m.ram.walk root va := by
    rw [hn.cpu, hm.root, Option.map_some, Option.map_some,
      hm.walk_twin hn h h.root_mem_owned fun f hf => Tables.mem_owned hf]
  unfold Machine.cacheWalk
  rw [hwalk]
  split
  · exact { hn with cpu := by rw [hn.cpu] }
  · exact { hn with cpu := by rw [hn.cpu] }
  · exact hn

end Paging
