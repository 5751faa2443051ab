import Paging.Proofs.Startup

/-!
# The record and the processor

A `Processor` may be anything that can be asked for 4 MiB pages and told what to do; it keeps state of its
own, and may answer differently each time. `installs` lets it install directory after directory, and keeps
for every `Installation` what was asked and told. `record_matches_root` says that the record is never
apart from these: after every prefix of the run it names the root that was told last, and all directories
that were installed, but for the last, come back once each and in order.

The machine is such a processor (`run_install`), so that its record names the directory that it walks
(`cpu_root_installs`).
-/

namespace Paging

/-- A processor with state in `σ`, and what its state makes of a report. -/
structure Processor (σ : Type) where
  hasLargePages : σ → Bool × σ
  execute : HardwareCall → σ → σ
  note : LogEvent → σ → σ

/-- What went to or came from a processor. -/
inductive Exchange where
  /-- It was asked for 4 MiB pages, and gave an answer. -/
  | asked (answer : Bool)
  | told (c : HardwareCall)
  deriving DecidableEq

/-- The root that is handed over, if one is. -/
def Exchange.root? : Exchange → Option Frame
  | told (.setRoot root) => some root
  | _ => none

namespace Processor

variable {σ : Type}

/-- A processor in the middle of a computation, with the exchanges so far, oldest first. -/
structure Watched (σ : Type) where
  state : σ
  exchanges : List Exchange := []

/-- Computations on a processor. -/
def Action (_ : Processor σ) (α : Type) : Type := StateM (Watched σ) α

instance (h : Processor σ) : Monad h.Action := inferInstanceAs (Monad (StateM (Watched σ)))

instance (h : Processor σ) : MonadProcessor h.Action where
  hasLargePages w :=
    let (answer, s) := h.hasLargePages w.state
    (answer, ⟨s, w.exchanges ++ [.asked answer]⟩)
  call c w := ((), ⟨h.execute c w.state, w.exchanges ++ [.told c]⟩)

instance (h : Processor σ) : MonadLog h.Action where
  emit e w := ((), { w with state := h.note e w.state })

end Processor

/-- One installation: the directory, the exchanges with the processor, what was returned, and the record
and the processor that it left. -/
structure Installation (σ : Type) where
  next : BuiltDirectory
  exchanges : List Exchange
  result : Except InstallRefusal (Option ActiveDirectory)
  record : RootRecord
  state : σ

namespace Processor

variable {σ : Type}

def install (h : Processor σ) (s : σ) (r : RootRecord) (d : BuiltDirectory) : Installation σ :=
  let ((result, record), w) := (r.install d : h.Action _) ⟨s, []⟩
  ⟨d, w.exchanges, result, record, w.state⟩

/-- One installation after the other, each with the record and the processor that the last one left. -/
def installs (h : Processor σ) (s : σ) (r : RootRecord) : List BuiltDirectory → List (Installation σ)
  | [] => []
  | d :: ds => h.install s r d :: h.installs (h.install s r d).state (h.install s r d).record ds

end Processor

namespace Installation

variable {σ : Type}

/-- The directory that was installed, if it was. -/
def installed? (i : Installation σ) : Option ActiveDirectory :=
  match i.result with
  | .ok _ => some ⟨i.next.root⟩
  | .error _ => none

/-- The directory that was given back, if one was. -/
def returned? (i : Installation σ) : Option ActiveDirectory :=
  match i.result with
  | .ok d => d
  | .error _ => none

/-- What the run `is` installed, oldest first. -/
def installed (is : List (Installation σ)) : List ActiveDirectory := is.filterMap installed?

def returned (is : List (Installation σ)) : List ActiveDirectory := is.filterMap returned?

/-- The roots that were handed to the processor, oldest first. -/
def roots (is : List (Installation σ)) : List Frame := is.flatMap fun i => i.exchanges.filterMap Exchange.root?

/-- The record after a run that began without one. -/
def recordAfter (is : List (Installation σ)) : RootRecord := (is.getLast?.map record).getD {}

/-- The processor after a run that began on `s`. -/
def stateAfter (s : σ) (is : List (Installation σ)) : σ := (is.getLast?.map state).getD s

/-- The two ways in which an installation ends, on the processor `s`, with the record `r`, and with `back`
as the directory to return. -/
inductive Ends (h : Processor σ) (s : σ) (r : RootRecord) (back : Option ActiveDirectory) :
    Installation σ → Prop
  /-- Without 4 MiB pages nothing is told, and the record stays. -/
  | refused (d : BuiltDirectory) (s' : σ) (no : h.hasLargePages s = (false, s')) :
      Ends h s r back ⟨d, [.asked false], .error .noLargePages, r, h.note (.installRefused d.root) s'⟩
  /-- With them the directory is handed over and recorded. -/
  | done (d : BuiltDirectory) (s' : σ) (yes : h.hasLargePages s = (true, s')) :
      Ends h s r back ⟨d, [.asked true, .told .largePagesOn, .told (.setRoot d.root), .told .pagingOn],
        .ok back, ⟨some ⟨d.root⟩⟩, h.note (.installed d.root)
          (h.execute .pagingOn (h.execute (.setRoot d.root) (h.execute .largePagesOn s')))⟩

/-- What holds of a run on the processor `s` that began without a record. -/
structure Recorded (h : Processor σ) (s : σ) (is : List (Installation σ)) : Prop where
  /-- Every installation ends in one of the two ways. It returns what was installed last. -/
  each : ∀ before i after, is = before ++ i :: after →
    Ends h (stateAfter s before) (recordAfter before) (installed before).getLast? i
  /-- The record names the root that was handed over last, -/
  current : ∀ before after, is = before ++ after →
    (recordAfter before).current = (roots before).getLast?.map ActiveDirectory.mk
  /-- and none only if there was none. -/
  current_eq_none_iff : ∀ before after, is = before ++ after →
    ((recordAfter before).current = none ↔ roots before = [])
  returned : returned is = (installed is).dropLast

variable {h : Processor σ} {s : σ} {is : List (Installation σ)} {i : Installation σ}

theorem dropLast_append_toList_getLast? {α : Type} (l : List α) : l.dropLast ++ l.getLast?.toList = l := by
  cases hl : l.getLast? with
  | none =>
    rw [List.getLast?_eq_none_iff.1 hl]
    rfl
  | some a => exact List.dropLast_append_getLast? a hl

theorem filterMap_concat {α β : Type} (f : α → Option β) (l : List α) (a : α) :
    (l ++ [a]).filterMap f = l.filterMap f ++ (f a).toList := by
  rw [List.filterMap_append, List.filterMap_cons]
  cases f a <;> rfl

@[simp] theorem recordAfter_concat (is : List (Installation σ)) (i : Installation σ) :
    recordAfter (is ++ [i]) = i.record := by
  rw [recordAfter, List.getLast?_concat]
  rfl

@[simp] theorem stateAfter_concat (s : σ) (is : List (Installation σ)) (i : Installation σ) :
    stateAfter s (is ++ [i]) = i.state := by
  rw [stateAfter, List.getLast?_concat]
  rfl

theorem installed_concat (is : List (Installation σ)) (i : Installation σ) :
    installed (is ++ [i]) = installed is ++ i.installed?.toList := filterMap_concat ..

theorem returned_concat (is : List (Installation σ)) (i : Installation σ) :
    returned (is ++ [i]) = returned is ++ i.returned?.toList := filterMap_concat ..

theorem roots_concat (is : List (Installation σ)) (i : Installation σ) :
    roots (is ++ [i]) = roots is ++ i.exchanges.filterMap Exchange.root? := by
  rw [roots, List.flatMap_append, List.flatMap_singleton]
  rfl

end Installation

/-! ## One installation -/

namespace Processor

variable {σ α β : Type} {h : Processor σ} {s s' : σ}

theorem run_bind {x : h.Action α} {a : α} {w w' : Watched σ} (f : α → h.Action β) (hx : x w = (a, w')) :
    (x >>= f) w = f a w' := by
  show f (x w).1 (x w).2 = f a w'
  rw [hx]

theorem run_hasLargePages {b : Bool} (ha : h.hasLargePages s = (b, s')) :
    (MonadProcessor.hasLargePages : h.Action Bool) ⟨s, []⟩ = (b, ⟨s', [.asked b]⟩) := by
  show ((h.hasLargePages s).1, (⟨(h.hasLargePages s).2, [.asked (h.hasLargePages s).1]⟩ : Watched σ)) = _
  rw [ha]

theorem install_refused (ha : h.hasLargePages s = (false, s')) (r : RootRecord) (d : BuiltDirectory) :
    h.install s r d =
      ⟨d, [.asked false], .error .noLargePages, r, h.note (.installRefused d.root) s'⟩ := by
  rw [install, RootRecord.install, run_bind _ (run_hasLargePages ha), if_neg Bool.false_ne_true]
  rfl

theorem install_done (ha : h.hasLargePages s = (true, s')) (r : RootRecord) (d : BuiltDirectory) :
    h.install s r d =
      ⟨d, [.asked true, .told .largePagesOn, .told (.setRoot d.root), .told .pagingOn], .ok r.current,
        ⟨some ⟨d.root⟩⟩, h.note (.installed d.root)
          (h.execute .pagingOn (h.execute (.setRoot d.root) (h.execute .largePagesOn s')))⟩ := by
  rw [install, RootRecord.install, run_bind _ (run_hasLargePages ha), if_pos rfl]
  rfl

theorem map_next_installs (h : Processor σ) (s : σ) (r : RootRecord) (ds : List BuiltDirectory) :
    (h.installs s r ds).map Installation.next = ds := by
  induction ds generalizing s r with
  | nil => rfl
  | cons d ds ih =>
    rw [installs, List.map_cons, ih]
    rfl

end Processor

/-! ## A run -/

namespace Installation

variable {σ : Type} {h : Processor σ} {s : σ} {is js : List (Installation σ)} {i : Installation σ}

theorem ends_install (h : Processor σ) (s : σ) (r : RootRecord) (d : BuiltDirectory) :
    Ends h s r r.current (h.install s r d) := by
  cases ha : h.hasLargePages s with
  | mk b s' =>
    cases b with
    | false =>
      rw [Processor.install_refused ha]
      exact .refused d s' ha
    | true =>
      rw [Processor.install_done ha]
      exact .done d s' ha

/-- Installations from a state without a record on. Each has what the last one left. -/
inductive History (h : Processor σ) (s : σ) : List (Installation σ) → Prop
  | nil : History h s []
  | concat {is : List (Installation σ)} {i : Installation σ} (before : History h s is)
      (ends : Ends h (stateAfter s is) (recordAfter is) (recordAfter is).current i) : History h s (is ++ [i])

theorem history_installs (ds : List BuiltDirectory) (hh : History h s is) :
    History h s (is ++ h.installs (stateAfter s is) (recordAfter is) ds) := by
  -- `installs` goes on from the front and a history from its end, so the history so far is generalized.
  induction ds generalizing is with
  | nil => rwa [Processor.installs, List.append_nil]
  | cons d ds ih =>
    have := ih (hh.concat (ends_install h _ _ d))
    rwa [recordAfter_concat, stateAfter_concat, List.append_assoc] at this

namespace History

theorem of_concat (hh : History h s (is ++ [i])) :
    History h s is ∧ Ends h (stateAfter s is) (recordAfter is) (recordAfter is).current i := by
  generalize hx : is ++ [i] = js at hh
  cases hh with
  | nil => exact absurd hx (by simp)
  | concat before ends =>
    obtain ⟨rfl, hi⟩ := List.append_inj' hx rfl
    cases hi
    exact ⟨before, ends⟩

/-- A history stopped early is a history. -/
theorem of_append (hh : History h s (is ++ js)) : History h s is := by
  induction js using List.reverseRecOn with
  | nil => rwa [List.append_nil] at hh
  | append_singleton js j ih =>
    rw [← List.append_assoc] at hh
    exact ih hh.of_concat.1

end History

/-- The record, the roots that were handed over and the directories that were returned, all three by what
was installed. -/
structure Trail (is : List (Installation σ)) : Prop where
  current : (recordAfter is).current = (installed is).getLast?
  roots : roots is = (installed is).map ActiveDirectory.root
  returned : returned is = (installed is).dropLast

theorem Trail.concat (ht : Trail is)
    (hi : Ends h s (recordAfter is) (recordAfter is).current i) : Trail (is ++ [i]) := by
  obtain ⟨hcur, hroots, hret⟩ := ht
  cases hi with
  | refused d s' _ =>
    constructor
    · simp [installed_concat, installed?, hcur]
    · rw [roots_concat, installed_concat, List.map_append, hroots]
      rfl
    · simp [returned_concat, returned?, installed_concat, installed?, hret]
  | done d s' _ =>
    constructor
    · simp [installed_concat, installed?]
    · rw [roots_concat, installed_concat, List.map_append, hroots]
      rfl
    · simp only [returned_concat, returned?, installed_concat, installed?, Option.toList_some,
        List.dropLast_concat]
      -- What was installed before came back but for the last, and that comes back now.
      rw [hret, hcur, dropLast_append_toList_getLast?]

theorem History.trail (hh : History h s is) : Trail is := by
  induction hh with
  | nil => exact ⟨rfl, rfl, rfl⟩
  | concat _ ends ih => exact ih.concat ends

theorem Trail.current_eq (ht : Trail is) :
    (recordAfter is).current = (Installation.roots is).getLast?.map ActiveDirectory.mk := by
  rw [ht.current, ht.roots, List.getLast?_map, Option.map_map]
  exact Option.map_id'.symm

/-- **The record matches the root.** Whatever the processor is and answers, the record names the root that
it was given last. -/
theorem record_matches_root (h : Processor σ) (s : σ) (ds : List BuiltDirectory) :
    (h.installs s {} ds).map next = ds ∧ Recorded h s (h.installs s {} ds) := by
  have hh : History h s (h.installs s {} ds) := history_installs ds .nil
  refine ⟨h.map_next_installs s {} ds, ?_, ?_, ?_, hh.trail.returned⟩
  · intro before i after heq
    rw [heq, List.append_cons] at hh
    obtain ⟨hbefore, hends⟩ := hh.of_append.of_concat
    rwa [hbefore.trail.current] at hends
  · intro before after heq
    rw [heq] at hh
    exact hh.of_append.trail.current_eq
  · intro before after heq
    rw [heq] at hh
    rw [hh.of_append.trail.current_eq, Option.map_eq_none_iff, List.getLast?_eq_none_iff]

end Installation

/-! ## The machine -/

namespace Machine

variable {m : Machine} {r : RootRecord}

/-- The machine as a processor. -/
def processor : Processor Machine where
  hasLargePages m := (m.cpu.hasLargePages, m)
  execute c m := { m with cpu := m.cpu.execute c, calls := m.calls.push c }
  note e m := { m with log := m.log.add e }

theorem processor_hasLargePages {b : Bool} (hb : m.cpu.hasLargePages = b) :
    processor.hasLargePages m = (b, m) := by
  rw [← hb]
  rfl

/-- Installing on the machine is installing on this processor. -/
theorem run_install (m : Machine) (r : RootRecord) (d : BuiltDirectory) :
    (r.install d : MachineM _) m = .ok
      ((processor.install m r d).result, (processor.install m r d).record)
      (processor.install m r d).state := by
  cases hb : m.cpu.hasLargePages with
  | false =>
    rw [Processor.install_refused (processor_hasLargePages hb), RootRecord.install,
      run_bind _ (run_hasLargePages hb), if_neg Bool.false_ne_true]
    rfl
  | true =>
    rw [Processor.install_done (processor_hasLargePages hb), Paging.install_done hb]
    rfl

theorem cpu_root_install (hh : m.cpu.root = r.current.map ActiveDirectory.root) (d : BuiltDirectory) :
    (processor.install m r d).state.cpu.root =
      (processor.install m r d).record.current.map ActiveDirectory.root := by
  cases hb : m.cpu.hasLargePages with
  | false =>
    rw [Processor.install_refused (processor_hasLargePages hb)]
    exact hh
  | true =>
    rw [Processor.install_done (processor_hasLargePages hb)]
    rfl

/-- The directory that the machine walks is always the recorded one. -/
theorem cpu_root_installs (hh : m.cpu.root = r.current.map ActiveDirectory.root) (ds : List BuiltDirectory) :
    ∀ i ∈ processor.installs m r ds, i.state.cpu.root = i.record.current.map ActiveDirectory.root := by
  induction ds generalizing m r with
  | nil => exact fun _ hi => absurd hi List.not_mem_nil
  | cons d ds ih =>
    intro i hi
    obtain rfl | hi := List.mem_cons.1 hi
    · exact cpu_root_install hh d
    · exact ih (cpu_root_install hh d) i hi

end Machine

end Paging
