import Paging.Proofs.Runs

/-!
# The address space of boot

Boot leaves a directory in one frame and a table in another, and a processor that walks them and has
cached nothing. Whatever memory held before, and whatever had been cached, every address below the
window then translates to itself, and the window shows the slots of the directory (`boot_identity`).

The frames of the directory and the table are the two lowest free ones. Nothing is asked of the rest of
the pool, so that it may lie outside of memory: the tables are read word by word (`Machine.OnBootTables`).
-/

namespace Paging

/-! ## The boot directory, read as a table -/

variable {root table : Frame} {i : SlotIndex} {f : Frame}

/-- The frame that slot `i` of the boot directory names. -/
def bootFrame (root table : Frame) (i : SlotIndex) : Frame :=
  if i.val = 0 then table else if i = selfMapSlot then root else i.identity.base.page .small

/-- The flags of slot `i` of the boot directory. -/
def bootFlags (i : SlotIndex) : UInt32 := if i.val = 0 ∨ i = selfMapSlot then 0x003 else 0x083

theorem bootFrame_eq (root table : Frame) (i : SlotIndex) : bootFrame root table i =
    if i = 0 then table else if i = selfMapSlot then root else i.identity.base.page .small := by
  simp only [bootFrame, Fin.val_eq_zero_iff]

theorem bootFlags_eq (i : SlotIndex) : bootFlags i = if i = 0 ∨ i = selfMapSlot then 0x003 else 0x083 := by
  simp only [bootFlags, Fin.val_eq_zero_iff]

/-- The first frame of the 4 MiB of slot `i`. -/
theorem toNat_identity_frame (i : SlotIndex) :
    (i.identity.base.page .small).base.val.toNat = i.val * 4194304 := by
  have hbase : i.identity.base.val.toNat = i.val * 4194304 := Page.toNat_base i.identity
  rw [Page.toNat_base]
  show i.identity.base.val.toNat / 4096 * 4096 = i.val * 4194304
  omega

theorem toNat_bootFlags (i : SlotIndex) : (bootFlags i).toNat < 4096 := by
  unfold bootFlags
  split <;> decide

theorem bits_bootDirectory (i : SlotIndex) :
    ((bootDirectory root table).get i).bits = (bootFrame root table i).base.val ||| bootFlags i := by
  rw [bootDirectory_get, bootFrame_eq, bootFlags_eq]
  by_cases h0 : i = 0
  · rw [if_pos h0, if_pos h0, if_pos (Or.inl h0), DirEntry.bits_link_supervisorRw]
  · by_cases hs : i = selfMapSlot
    · rw [if_neg h0, if_pos hs, if_neg h0, if_pos hs, if_pos (Or.inr hs), DirEntry.bits_link_supervisorRw]
    · have hbase : (i.identity.base.page .small).base.val = i.identity.base.val := by
        apply UInt32.toNat_inj.1
        rw [toNat_identity_frame, Page.toNat_base]
        rfl
      rw [if_neg h0, if_neg hs, if_neg h0, if_neg hs, if_neg (by tauto), hbase,
        DirEntry.bits_large_supervisorRw]

/-- Every slot is present, also when the directory is read as a table. -/
theorem mapping?_bootDirectory (i : SlotIndex) :
    (EntryBits.mk ((bootDirectory root table).get i).bits).mapping? =
      some (bootFrame root table i, ⟨((bootDirectory root table).get i).bits⟩) := by
  have hframe : (EntryBits.mk ((bootDirectory root table).get i).bits).frame = bootFrame root table i := by
    rw [← Walk.frameOf_eq_entry, bits_bootDirectory, Page.frameOf_base_or _ (toNat_bootFlags i)]
  have hpresent : (EntryBits.mk ((bootDirectory root table).get i).bits).present := by
    rw [EntryBits.present_iff]
    intro hzero
    have habsent := DirEntry.content?_eq ((bootDirectory root table).get i)
    rw [if_pos hzero, bootDirectory_get] at habsent
    split_ifs at habsent <;> simp at habsent
  rw [EntryBits.mapping?, if_pos hpresent, hframe]

/-- The identity table maps every page to the frame of the same number. -/
theorem exists_identityTable_get (k : EntryIndex) :
    ∃ f : Frame, identityTable.get k = .leaf f .supervisorRw ∧ f.number = k.val :=
  ⟨_, PageTable.get_ofFn _ k, Nat.zero_add _⟩

/-! ## A machine on the tables of boot -/

/-- The windows of the two tables. -/
def bootWindows (root table : Frame) : Translations where
  small p f := ∃ i, p = (tableView i).page .small ∧ ((bootDirectory root table).get i).table? = some f
  large _ _ := False

/-- The processor has paging on and walks the directory in `root`, whose first slot links the table in
`table`, and has cached nothing but the windows of the two. -/
structure Machine.OnBootTables (m : Machine) (root table : Frame) : Prop where
  paging : m.cpu.paging = true
  cr3 : m.cpu.root = some root
  slot : ∀ i, m.ram.word? root i = some ((bootDirectory root table).get i).bits
  entry : ∀ k, m.ram.word? table k = some (identityTable.get k).bits
  cached : m.cpu.tlb.Within (bootWindows root table)

namespace Machine.OnBootTables

variable {m : Machine} (h : m.OnBootTables root table)

include h

theorem holds (hi : ((bootDirectory root table).get i).table? = some f) : m.ram.Holds f := by
  have hword : ∃ w, m.ram.word? f 0 = some w := by
    rw [table?_bootDirectory] at hi
    split_ifs at hi <;> cases hi
    · exact ⟨_, h.entry 0⟩
    · exact ⟨_, h.slot 0⟩
  obtain ⟨w, hw⟩ := hword
  obtain ⟨ws, hws, -⟩ := Option.map_eq_some_iff.1 hw
  exact Ram.frame?_isSome_iff.1 (Option.isSome_of_eq_some hws)

theorem walk_window (hi : ((bootDirectory root table).get i).table? = some f) :
    m.ram.walk root (tableView i) = .small ((bootDirectory root table).get selfMapSlot).bits
      ((bootDirectory root table).get i).bits := by
  obtain ⟨hp, hs, hroot⟩ := DirEntry.of_table?_eq_some (table?_bootDirectory_selfMap root table)
  obtain ⟨hp', -, -⟩ := DirEntry.of_table?_eq_some hi
  simp only [Ram.walk, slotIndex_tableView, entryIndex_tableView, h.slot, hroot, if_neg hp, hs, ne_eq,
    not_true_eq_false, if_false, if_neg hp']

/-- The window of a table shows the table. -/
theorem window (hi : ((bootDirectory root table).get i).table? = some f) :
    ∃ m', Machine.window (tableView i) m = .ok f m' ∧ m'.OnBootTables root table := by
  rw [Machine.run_window h.paging]
  cases hc : m.cpu.tlb.frame? ((tableView i).page .small) with
  | some g =>
    have hg : g = f := by
      rcases h.cached.of_frame? hc with ⟨j, hj, hg⟩ | ⟨q, hq, -⟩
      · rw [Address.page_eq_iff, entryIndex_tableView, entryIndex_tableView] at hj
        rw [← hj.2, hi] at hg
        exact (Option.some.inj hg).symm
      · cases hq
    subst hg
    exact ⟨_, Machine.run_resolve_cached hc (h.holds hi), { h with }⟩
  | none =>
    obtain ⟨-, -, hframe⟩ := DirEntry.of_table?_eq_some hi
    have hx := Machine.run_resolve_walked hc h.cr3 (h.walk_window hi) (hframe ▸ h.holds hi)
    rw [hframe] at hx
    have hadd : (bootWindows root table).add ((tableView i).page .small) f = bootWindows root table :=
      Translations.add_of_mem ⟨i, rfl, hi⟩
    have hcached := h.cached.insertSmall ((tableView i).page .small) f
    rw [hadd] at hcached
    exact ⟨_, hx, { h with cached := hcached, paging := h.paging, cr3 := h.cr3 }⟩

/-- The directory shows its slots. -/
theorem readSlot (i : SlotIndex) : ∃ m', Space.slot i m = .ok ((bootDirectory root table).get i) m' ∧
    m'.OnBootTables root table := by
  obtain ⟨m', hx, h'⟩ := h.window (table?_bootDirectory_selfMap root table)
  rw [tableView_selfMapSlot] at hx
  refine ⟨m', ?_, h'⟩
  rw [Space.slot, Machine.directory, Machine.run_bind _ hx, Space.readSlot,
    Machine.run_bind _ (Machine.run_readWord (h'.slot i))]
  rfl

end Machine.OnBootTables

/-- What an address translates to after boot. -/
def bootTranslation (root table : Frame) (va : VirtualAddress) : PhysicalAddress × EntryBits :=
  if va.slotIndex = selfMapSlot then
    ((bootFrame root table va.entryIndex).join (va.offset .small), ⟨bootFlags va.entryIndex⟩)
  else (⟨va.val⟩, ⟨bootFlags va.slotIndex⟩)

namespace Machine.OnBootTables

variable {m : Machine} (h : m.OnBootTables root table)

include h

/-- Through a table, an address translates as the entry says that is found there. -/
theorem translate_table {va : VirtualAddress} {e : EntryBits} {g : Frame}
    (hi : ((bootDirectory root table).get va.slotIndex).table? = some f)
    (hword : ∀ m : Machine, m.OnBootTables root table → m.ram.word? f va.entryIndex = some e.bits)
    (he : e.mapping? = some (g, e)) : ∃ m',
      Space.translate va m = .ok (some (g.join (va.offset .small), e.flags)) m' ∧
        m'.OnBootTables root table := by
  obtain ⟨l, hcontent⟩ := DirEntry.table?_eq_some_iff.1 hi
  obtain ⟨m₁, hx₁, h₁⟩ := h.readSlot va.slotIndex
  obtain ⟨m₂, hx₂, h₂⟩ := h₁.window hi
  refine ⟨m₂, ?_, h₂⟩
  rw [Space.translate, Machine.slotOf_eq, Machine.entryOf_eq, pure_bind, pure_bind, Machine.run_bind _ hx₁,
    hcontent]
  simp only
  rw [Machine.viewOf_eq, pure_bind, Machine.run_bind _ hx₂,
    Machine.run_bind _ (Machine.run_readWord (hword m₂ h₂)), he]
  rfl

/-- A 4 MiB page translates without a table. -/
theorem translate_large {va : VirtualAddress} (h0 : va.slotIndex ≠ 0) (hs : va.slotIndex ≠ selfMapSlot) :
    ∃ m', Space.translate va m =
        .ok (some (va.slotIndex.identity.join (va.offset .large), ⟨0x083⟩)) m' ∧
      m'.OnBootTables root table := by
  obtain ⟨m₁, hx₁, h₁⟩ := h.readSlot va.slotIndex
  refine ⟨m₁, ?_, h₁⟩
  have hflags : (EntryBits.mk (DirEntry.large .supervisorRw va.slotIndex.identity).bits).flags = ⟨0x083⟩ :=
    congrArg EntryBits.mk (DirEntry.flags_large va.slotIndex.identity)
  rw [Space.translate, Machine.slotOf_eq, Machine.entryOf_eq, pure_bind, pure_bind, Machine.run_bind _ hx₁,
    bootDirectory_get, if_neg h0, if_neg hs,
    DirEntry.content?_large]
  simp only [hflags]
  rfl

theorem translate (va : VirtualAddress) : ∃ m',
    Space.translate va m = .ok (some (bootTranslation root table va)) m' ∧ m'.OnBootTables root table := by
  have hva := va.val.toNat_lt
  by_cases hs : va.slotIndex = selfMapSlot
  · have hi : ((bootDirectory root table).get va.slotIndex).table? = some root := by
      rw [hs, table?_bootDirectory_selfMap]
    have hflags : (EntryBits.mk ((bootDirectory root table).get va.entryIndex).bits).flags =
        ⟨bootFlags va.entryIndex⟩ := by
      rw [bits_bootDirectory]
      exact congrArg EntryBits.mk (Page.base_or_and _ (toNat_bootFlags va.entryIndex))
    have hx := h.translate_table (e := ⟨((bootDirectory root table).get va.entryIndex).bits⟩) hi
      (fun m h => h.slot va.entryIndex) (mapping?_bootDirectory va.entryIndex)
    rw [bootTranslation, if_pos hs]
    rw [hflags] at hx
    exact hx
  · by_cases h0 : va.slotIndex = 0
    · have hi : ((bootDirectory root table).get va.slotIndex).table? = some table := by
        rw [h0, table?_bootDirectory, if_pos rfl]
      obtain ⟨g, hg, hnumber⟩ := exists_identityTable_get va.entryIndex
      have hmapping : (identityTable.get va.entryIndex).mapping? =
          some (g, identityTable.get va.entryIndex) := by
        rw [hg, EntryBits.mapping?, EntryBits.present_leaf, if_pos rfl, EntryBits.frame_leaf]
      have hflags : (identityTable.get va.entryIndex).flags = ⟨0x003⟩ := by
        rw [hg]
        exact EntryBits.ext ((EntryBits.flags_leaf g .supervisorRw).trans (by decide))
      have hjoin : g.join (va.offset .small) = ⟨va.val⟩ := by
        have hslot : va.val.toNat / 4194304 = 0 := congrArg Fin.val h0
        have hplace : g.number = va.val.toNat / 4096 % 1024 := hnumber
        apply Address.ext
        apply UInt32.toNat_inj.1
        rw [Page.toNat_join, hplace]
        show va.val.toNat / 4096 % 1024 * 4096 + va.val.toNat % 4096 = va.val.toNat
        omega
      have hx := h.translate_table hi (fun m h => h.entry va.entryIndex) hmapping
      rw [hflags, hjoin] at hx
      rw [bootTranslation, if_neg hs, h0, bootFlags_eq, if_pos (Or.inl rfl)]
      exact hx
    · have hx := h.translate_large h0 hs
      rw [va.identity_join] at hx
      rw [bootTranslation, if_neg hs, bootFlags_eq, if_neg (by tauto)]
      exact hx

theorem step_translate (va : VirtualAddress) : ∃ m', Space.step (.translate va) m =
      .ok (.ok (.translation (bootTranslation root table va).1 (bootTranslation root table va).2)) m' ∧
    m'.OnBootTables root table := by
  obtain ⟨m₁, hx₁, h₁⟩ := h.translate va
  refine ⟨m₁, ?_, h₁⟩
  rw [Space.step, Machine.run_bind _ hx₁]
  rfl

theorem step_regionOf (va : VirtualAddress) : ∃ m', Space.step (.regionOf va) m =
      .ok (.ok (.region (.ofSlot va.slotIndex ((bootDirectory root table).get va.slotIndex)))) m' ∧
    m'.OnBootTables root table := by
  obtain ⟨m₁, hx₁, h₁⟩ := h.readSlot va.slotIndex
  refine ⟨m₁, ?_, h₁⟩
  have hregion : Space.regionOf va m =
      .ok (.ofSlot va.slotIndex ((bootDirectory root table).get va.slotIndex)) m₁ := by
    rw [Space.regionOf, Machine.slotOf_eq, pure_bind, Machine.run_bind _ hx₁]
    rfl
  rw [Space.step, Machine.run_bind _ hregion]
  rfl

end Machine.OnBootTables

/-! ## In figures -/

/-- The window with number `i` after boot: the address that it shows, and the flags. -/
def bootWindow (root table : Frame) (i : UInt32) : UInt32 × UInt32 :=
  if i = 0 then (table.base.val, 0x003) else if i = 1023 then (root.base.val, 0x003) else (i <<< 22, 0x083)

/-- The region that a plan makes. -/
def BootPlan.region : BootPlan → Region
  | identitySmall => .tableBacked
  | identityLarge => .identityLarge
  | selfMap => .selfMap

theorem bootWindow_eq (root table : Frame) (va : VirtualAddress) :
    bootWindow root table (va.val >>> 12 &&& 0x3FF) =
      ((bootFrame root table va.entryIndex).base.val, bootFlags va.entryIndex) := by
  have hi := va.toNat_entryIndex
  generalize va.val >>> 12 &&& 0x3FF = i at hi
  have hlt := va.entryIndex.isLt
  generalize va.entryIndex = k at hi hlt
  have h0 : i = 0 ↔ k = 0 := by
    rw [← UInt32.toNat_inj, hi, Fin.ext_iff]
    rfl
  have hs : i = 1023 ↔ k = selfMapSlot := by
    rw [← UInt32.toNat_inj, hi, Fin.ext_iff]
    rfl
  rw [bootWindow, bootFrame_eq, bootFlags_eq]
  by_cases hk : k = 0
  · rw [if_pos (h0.2 hk), if_pos hk, if_pos (Or.inl hk)]
  · by_cases hk' : k = selfMapSlot
    · rw [if_neg (h0.not.2 hk), if_pos (hs.2 hk'), if_neg hk, if_pos hk', if_pos (Or.inr hk')]
    · have hbase : i <<< 22 = ((SlotIndex.identity k).base.page .small).base.val := by
        apply UInt32.toNat_inj.1
        rw [toNat_identity_frame, UInt32.toNat_shiftLeft, hi]
        show k.val <<< 22 % 4294967296 = k.val * 4194304
        rw [Nat.shiftLeft_eq]
        omega
      rw [if_neg (h0.not.2 hk), if_neg (hs.not.2 hk'), if_neg hk, if_neg hk', if_neg (by tauto), hbase]

theorem region_bootDirectory (i : SlotIndex) :
    Region.ofSlot i ((bootDirectory root table).get i) = (bootPlan i).region := by
  rw [bootDirectory_get, Region.ofSlot]
  by_cases h0 : i = 0
  · subst h0
    rw [if_neg (by decide), if_pos rfl, DirEntry.content?_link]
    rfl
  · have hv : i.val ≠ 0 := Fin.val_ne_zero_iff.2 h0
    by_cases hs : i = selfMapSlot
    · rw [if_pos hs, bootPlan, if_neg hv, if_pos hs]
      rfl
    · rw [if_neg hs, if_neg h0, if_neg hs, DirEntry.content?_large, bootPlan, if_neg hv, if_neg hs]
      rfl

/-! ## The session after boot -/

/-- A step that asks for a translation or a region. -/
inductive SpaceStep.Asks : SpaceStep → Prop
  | translate (va : VirtualAddress) : Asks (.translate va)
  | regionOf (va : VirtualAddress) : Asks (.regionOf va)

namespace Session

/-- The session after the steps of a list. -/
def ask (s : Session) (ps : List SpaceStep) : Session := ps.foldl (fun s p => (s.step (.space p)).2) s

/-- The address space of boot, with the directory in `root` and the first table in `table`. -/
structure ShowsIdentity (s : Session) (root table : Frame) : Prop where
  small : ∀ va : VirtualAddress, va.val < 0x400000 →
    (s.step (.space (.translate va))).1 = .ok (.translation ⟨va.val⟩ ⟨0x003⟩)
  large : ∀ va : VirtualAddress, 0x400000 ≤ va.val → va.val < 0xFFC00000 →
    (s.step (.space (.translate va))).1 = .ok (.translation ⟨va.val⟩ ⟨0x083⟩)
  window : ∀ va : VirtualAddress, 0xFFC00000 ≤ va.val →
    (s.step (.space (.translate va))).1 =
      .ok (.translation ⟨(bootWindow root table (va.val >>> 12 &&& 0x3FF)).1 ||| va.val &&& 0xFFF⟩
        ⟨(bootWindow root table (va.val >>> 12 &&& 0x3FF)).2⟩)
  region : ∀ va : VirtualAddress,
    (s.step (.space (.regionOf va))).1 = .ok (.region (bootPlan va.slotIndex).region)

/-- `s'` is `s` after a boot that used the frames `root` and `table`. -/
structure BootsTo (s s' : Session) (root table : Frame) : Prop where
  calls : s'.machine.calls = s.machine.calls ++ #[.largePagesOn, .setRoot root, .pagingOn]
  cr3 : s'.machine.cpu.root = some root
  current : s'.space = some ⟨some ⟨root⟩⟩
  frames : ∀ f, f ≠ root → f ≠ table → s'.machine.ram.frame? f = s.machine.ram.frame? f

variable {s : Session} {record : RootRecord}

theorem step_space (hs : s.space = some record) {p : SpaceStep} {a : Except StepError Answer} {m : Machine}
    (h : Space.step p s.machine = .ok a m) : s.step (.space p) = (a, { s with machine := m }) :=
  Holding.spaceStep_of_ok (u := ⟨s, []⟩) hs h

/-- What the machine answers on the tables of boot, in figures. -/
theorem showsIdentity (hs : s.space = some record) (h : s.machine.OnBootTables root table) :
    s.ShowsIdentity root table := by
  have htranslate (va : VirtualAddress) : (s.step (.space (.translate va))).1 =
      .ok (.translation (bootTranslation root table va).1 (bootTranslation root table va).2) := by
    obtain ⟨m, hm, -⟩ := h.step_translate va
    rw [step_space hs hm]
  have hslot (va : VirtualAddress) : va.slotIndex.val = va.val.toNat / 4194304 := rfl
  refine ⟨?_, ?_, ?_, ?_⟩
  · intro va hva
    have hlt : va.val.toNat < 4194304 := UInt32.lt_iff_toNat_lt.1 hva
    have h0 : va.slotIndex = 0 := Fin.ext (by rw [hslot]; show _ = 0; omega)
    rw [htranslate, bootTranslation, h0, if_neg (by decide), bootFlags_eq, if_pos (Or.inl rfl)]
  · intro va hle hlt
    have hle' : 4194304 ≤ va.val.toNat := UInt32.le_iff_toNat_le.1 hle
    have hlt' : va.val.toNat < 4290772992 := UInt32.lt_iff_toNat_lt.1 hlt
    have h0 : va.slotIndex ≠ 0 := by
      intro h0
      have hz : va.val.toNat / 4194304 = 0 := congrArg Fin.val h0
      omega
    have hs : va.slotIndex ≠ selfMapSlot := by
      intro hs
      have hz : va.val.toNat / 4194304 = 1023 := congrArg Fin.val hs
      omega
    rw [htranslate, bootTranslation, if_neg hs, bootFlags_eq, if_neg (by tauto)]
  · intro va hle
    have hs : va.slotIndex = selfMapSlot := (inWindow_iff va).1 (decide_eq_true hle)
    rw [htranslate, bootTranslation, if_pos hs, bootWindow_eq, Page.join_offset_eq]
  · intro va
    obtain ⟨m, hm, -⟩ := h.step_regionOf va
    rw [step_space hs hm, region_bootDirectory]

/-- Questions leave the machine on the tables of boot. -/
theorem ask_showsIdentity (ps : List SpaceStep) : ∀ {s : Session}, (∀ p ∈ ps, p.Asks) →
    s.space = some record → s.machine.OnBootTables root table → (s.ask ps).ShowsIdentity root table := by
  induction ps with
  | nil =>
    intro s _ hs h
    exact showsIdentity hs h
  | cons p ps ih =>
    intro s hp hs h
    have hrest : ∀ q ∈ ps, q.Asks := fun q hq => hp q (List.mem_cons_of_mem p hq)
    show ((s.step (.space p)).2.ask ps).ShowsIdentity root table
    cases hp p List.mem_cons_self with
    | translate va =>
      obtain ⟨m, hm, h'⟩ := h.step_translate va
      rw [step_space hs hm]
      exact ih hrest hs h'
    | regionOf va =>
      obtain ⟨m, hm, h'⟩ := h.step_regionOf va
      rw [step_space hs hm]
      exact ih hrest hs h'

theorem onBootTables {m : Machine} {r : Ram} (hr : r.Holds root) (ht : r.Holds table) (hne : table ≠ root)
    (hram : m.ram = r.withBootTables root table) (hpaging : m.cpu.paging = true)
    (hcr3 : m.cpu.root = some root) (htlb : m.cpu.tlb = .empty) : m.OnBootTables root table := by
  have hr' : (r.putFrame table identityTable.words).Holds root := (Ram.holds_putFrame _).2 hr
  refine ⟨hpaging, hcr3, ?_, ?_, htlb ▸ Tlb.within_empty _⟩
  · intro i
    rw [hram, Ram.withBootTables, Ram.word?_putFrame hr', if_pos rfl, PageDirectory.get]
    generalize (bootDirectory root table).words = ws
    rfl
  · intro k
    rw [hram, Ram.withBootTables, Ram.word?_putFrame hr', if_neg hne, Ram.word?_putFrame ht, if_pos rfl,
      PageTable.get]
    generalize identityTable.words = ws
    rfl

/-- **Boot makes the identity map.** Whatever memory holds and the processor has cached, a boot with the
two lowest free frames `root` and `table` makes three hardware calls and writes into these frames alone.
From then on the address space is the one that was planned, however often it is asked. -/
theorem boot_identity (hpse : s.machine.cpu.hasLargePages = true) (hp : s.machine.pool.Sound)
    (hroot : IsLeast s.machine.pool.freeFrames root)
    (htable : IsLeast (s.machine.pool.freeFrames \ {root}) table)
    (hr : s.machine.ram.Holds root) (ht : s.machine.ram.Holds table) :
    ∃ s', s.step .boot = (.ok .nothing, s') ∧ s.BootsTo s' root table ∧
      ∀ ps, (∀ p ∈ ps, p.Asks) → (s'.ask ps).ShowsIdentity root table := by
  obtain ⟨p₁, h₁⟩ := FramePool.take_of_isLeast hp hroot
  obtain ⟨-, hp₁, -, -, -⟩ := FramePool.take_spec hp h₁
  rw [← FramePool.freeFrames_of_take hp h₁] at htable
  obtain ⟨pool, h₂⟩ := FramePool.take_of_isLeast hp₁ htable
  obtain ⟨hne, -⟩ := boot_frames hp h₁ h₂
  obtain ⟨log, hb⟩ := boot_done hpse h₁ h₂ hr ht
  refine ⟨_, Holding.step_boot (u := ⟨s, []⟩) hb, ⟨?_, rfl, rfl, ?_⟩, ?_⟩
  · show ((s.machine.calls.push _).push _).push _ = _
    simp only [Array.push_eq_append, Array.append_assoc]
    rfl
  · intro f hfr hft
    exact frame?_withBootTables hr ht hfr hft
  · intro ps hq
    exact ask_showsIdentity ps hq rfl (onBootTables hr ht hne rfl rfl rfl rfl)

/-- The small machine; its processor remembers a translation from before. -/
def stale : Session :=
  { Holding.small.session with machine := { Holding.small.session.machine with
      cpu :=
        { hasLargePages := true, tlb := Tlb.empty.insertSmall (directoryView.page .small) (Page.ofNumber 3) } } }

theorem boot_identity_small : ∃ s', stale.step .boot = (.ok .nothing, s') ∧
    stale.BootsTo s' (Page.ofNumber 16) (Page.ofNumber 17) ∧
      ∀ ps, (∀ p ∈ ps, p.Asks) → (s'.ask ps).ShowsIdentity (Page.ofNumber 16) (Page.ofNumber 17) := by
  have hi := Holding.unbooted_small.idle
  have hroot : IsLeast stale.machine.pool.freeFrames (Page.ofNumber 16) := by
    refine ⟨⟨⟨by decide, by decide⟩, by decide⟩, ?_⟩
    rintro f ⟨⟨hle, -⟩, -⟩
    exact hle
  have htable : IsLeast (stale.machine.pool.freeFrames \ {Page.ofNumber 16}) (Page.ofNumber 17) := by
    refine ⟨⟨⟨⟨by decide, by decide⟩, by decide⟩, by decide⟩, ?_⟩
    rintro f ⟨⟨⟨hle, -⟩, -⟩, hne⟩
    have hnumber : f.number ≠ 16 := fun h => hne (Page.ext h)
    have hle' : 16 ≤ f.number := hle
    show 17 ≤ f.number
    omega
  exact boot_identity rfl hi.pool hroot htable (by decide) (by decide)

end Session

end Paging
