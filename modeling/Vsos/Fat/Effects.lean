import Vsos.Fat.History

/-!
# Where a routine writes

A routine that only writes to sectors of a set leaves all other sectors as they are. The
history shows the same thing: every write it records is at an address of the set. Both facts
travel together through the routines of the driver.
-/

namespace Vsos.Fat

open Vsos.Lib

/-- A write to one of the given addresses, or no write at all. -/
def Event.Confined (A : ℕ → Prop) : Event → Prop
  | .writeSector a => A a
  | _ => True

/-- An event that is confined to some sectors is confined to more of them. -/
theorem Event.Confined.mono {A B : ℕ → Prop} {e : Event} (h : e.Confined A) (hAB : ∀ a, A a → B a) :
    e.Confined B := by
  cases e with
  | writeSector a => exact hAB a h
  | _ => trivial

/-- `t` is reached from `s` by writes to the sectors in `A`. -/
structure Alters (A : ℕ → Prop) (s t : State) : Prop where
  data : ∀ a, ¬ A a → t.data a = s.data a
  trace : Traces (Event.Confined A) s t

namespace Alters

variable {A B : ℕ → Prop} {s t u : State}

/-- Nothing has been altered. -/
theorem refl (A : ℕ → Prop) (s : State) : Alters A s s := ⟨fun _ _ => rfl, Traces.refl _ s⟩

/-- Two calls one after the other. -/
theorem trans (h : Alters A s t) (h' : Alters A t u) : Alters A s u :=
  ⟨fun a ha => (h'.data a ha).trans (h.data a ha), h.trace.trans h'.trace⟩

instance : IsPreorder State (Alters A) where
  refl := refl A
  trans _ _ _ := trans

/-- A larger set of sectors. -/
theorem mono (h : Alters A s t) (hAB : ∀ a, A a → B a) : Alters B s t :=
  ⟨fun a ha => h.data a fun hA => ha (hAB a hA), h.trace.mono fun _ he => he.mono hAB⟩

end Alters

/-- Observing a volume alters nothing. -/
theorem Observes.alters {v : Volume} {P : Event → Prop} {s t : State} (h : Observes v P s t)
    (hP : ∀ e, P e → ∀ a, e ≠ .writeSector a) (A : ℕ → Prop) : Alters A s t := by
  refine ⟨fun a _ => by rw [h.data], h.traces.mono ?_⟩
  intro e he
  cases e with
  | writeSector a => exact absurd rfl (hP _ he a)
  | _ => trivial

/-- Reading a volume alters nothing. -/
theorem Observes.alters_of_reads {v : Volume} {s t : State} (h : Reads v s t) (A : ℕ → Prop) :
    Alters A s t := by
  apply h.alters
  rintro _ ⟨address, rfl⟩ a
  simp

section KeepsAlters

variable (v : Volume) (A : ℕ → Prop)

/-- A call that only reads alters nothing. -/
theorem keepsAlters_of_reads {α : Type} {x : FatM α} (h : Keeps (Reads v) x) :
    Keeps (Alters A) x :=
  fun s => (h s).alters_of_reads A

/-- A read alters nothing. -/
theorem keepsAlters_readSector (address : ℕ) : Keeps (Alters A) (readSector v address) :=
  keepsAlters_of_reads v A (keepsReads_readSector v address)

/-- A look at the buffer alters nothing. -/
theorem keepsAlters_getReadBuffer : Keeps (Alters A) getReadBuffer := fun s => Alters.refl A s

/-- A change of the buffer alters nothing on the disk. -/
theorem keepsAlters_modifyReadBuffer (f : Bytes → Bytes) : Keeps (Alters A) (modifyReadBuffer f) :=
  fun s => ⟨fun _ _ => rfl, Traces.refl _ s⟩

/-- A note of an access alters nothing. -/
theorem keepsAlters_emit {e : Event} (he : ∀ a, e ≠ .writeSector a) : Keeps (Alters A) (emit e) := by
  intro s
  refine ⟨fun _ _ => rfl, Traces.emit ?_ rfl⟩
  cases e with
  | writeSector a => exact absurd rfl (he a)
  | _ => trivial

/-- A write at an address of the set, whether it succeeds or not. -/
theorem keepsAlters_writeSector {address : ℕ} (h : A address) (src : Bytes) :
    Keeps (Alters A) (writeSector v address src) := by
  intro s
  refine ⟨fun a ha => ?_, Traces.emit (e := .writeSector address) h rfl⟩
  change (if v.writeStatus s.trace address = 0 then _ else s.data) a = s.data a
  split
  · have hne : a ≠ address := fun heq => ha (heq ▸ h)
    exact Function.update_of_ne hne _ _
  · rfl

/-- A write alters its sector. -/
theorem keepsAlters_writeReadBuffer {address : ℕ} (h : A address) :
    Keeps (Alters A) (writeReadBuffer v address) :=
  .bind (keepsAlters_getReadBuffer A) fun b => keepsAlters_writeSector v A h b

end KeepsAlters

/-- A write that succeeds replaces the front of the block. -/
theorem writeSector_run {v : Volume} (hwrite : ∀ h a, v.writeStatus h a = 0) (address : ℕ)
    (src : Bytes) (s : State) :
    (writeSector v address src).run s = .ok 0
      { s with
        data := Function.update s.data address ((s.data address).blit 0 src v.blockSize)
        trace := .writeSector address :: s.trace } := by
  change EStateM.Result.ok _ _ = _
  simp only [hwrite, if_true]

/-- A write of the buffer that succeeds. -/
theorem writeReadBuffer_run {v : Volume} (hwrite : ∀ h a, v.writeStatus h a = 0) (address : ℕ)
    (s : State) :
    (writeReadBuffer v address).run s = .ok 0
      { s with
        data := Function.update s.data address ((s.data address).blit 0 s.readBuffer v.blockSize)
        trace := .writeSector address :: s.trace } := by
  rw [writeReadBuffer, bind_of_ok (getReadBuffer_run s), writeSector_run hwrite]

/-- A change of the buffer. -/
@[simp] theorem modifyReadBuffer_run (f : Bytes → Bytes) (s : State) :
    (modifyReadBuffer f).run s = .ok () { s with readBuffer := f s.readBuffer } := rfl

/-- The state after a block was read, changed and written back. -/
def State.afterUpdate (v : Volume) (s : State) (address : ℕ) (f : Bytes → Bytes) : State :=
  { s with
    readBuffer := f (blockAt v s address)
    data := Function.update s.data address
      ((s.data address).blit 0 (f (blockAt v s address)) v.blockSize)
    trace := .writeSector address :: .readSector address :: s.trace }

/-- Read a sector, change the buffered copy and write it back, on a disk that never fails. -/
theorem update_run {v : Volume} (hdev : v.AlwaysSucceeds) {α : Type} (address : ℕ) (f : Bytes → Bytes)
    (failed : FatM α) (next : ℤ → FatM α) (s : State) :
    (do
      let status ← readSector v address
      if status ≠ 0 then failed
      else do
        modifyReadBuffer f
        let status ← writeReadBuffer v address
        next status : FatM α).run s = (next 0).run (s.afterUpdate v address f) := by
  rw [bind_of_ok (readSector_run hdev.1 _ s), if_neg (by simp), bind_of_ok (modifyReadBuffer_run _ _),
    bind_of_ok (writeReadBuffer_run hdev.2 _ _)]
  rfl

/-- A sector that is read, changed and written back. -/
theorem alters_afterUpdate (v : Volume) (s : State) (address : ℕ) (f : Bytes → Bytes) :
    Alters (· = address) s (s.afterUpdate v address f) :=
  ⟨fun _ ha => Function.update_of_ne ha _ _, [.writeSector _, .readSector _], rfl,
    by simp [Event.Confined]⟩

/-- A note of an access. -/
@[simp] theorem emit_run (e : Event) (s : State) :
    (emit e).run s = .ok () { s with trace := e :: s.trace } := rfl

end Vsos.Fat
