import Vsos.Fat.Directory

/-!
# Reading leaves the volume as it is

The routines that resolve paths only read sectors. Whatever the driver answers, they keep
the disk and the allocation cursor, touch `readBuffer` only where a block is put, and add
nothing but reads to the history. With reads that succeed the table accessor returns the
entry that the disk holds, and a path leads to the same entry as long as the disk stays as
it is.
-/

namespace Vsos.Fat

open Vsos.Lib

/-- `t` is reached from `s` by accesses that satisfy `P`. -/
def Traces (P : Event → Prop) (s t : State) : Prop :=
  ∃ new, t.trace = new ++ s.trace ∧ ∀ e ∈ new, P e

/-- The accesses made between two states of a run. -/
def eventsSince (s t : State) : List Event := t.trace.take (t.trace.length - s.trace.length)

/-- The new part of the trace. -/
theorem eventsSince_eq {s t : State} {new : List Event} (h : t.trace = new ++ s.trace) :
    eventsSince s t = new := by
  rw [eventsSince, h, List.length_append, Nat.add_sub_cancel, List.take_left]

namespace Traces

variable {P Q : Event → Prop} {s t u : State}

/-- Nothing has happened. -/
theorem refl (P : Event → Prop) (s : State) : Traces P s s := ⟨[], rfl, by simp⟩

/-- Two calls one after the other. -/
theorem trans (h : Traces P s t) (h' : Traces P t u) : Traces P s u := by
  obtain ⟨new, htrace, hnew⟩ := h
  obtain ⟨new', htrace', hnew'⟩ := h'
  refine ⟨new' ++ new, by simp [htrace, htrace'], ?_⟩
  intro e he
  rcases List.mem_append.mp he with he | he
  · exact hnew' e he
  · exact hnew e he

instance : IsPreorder State (Traces P) where
  refl := refl P
  trans _ _ _ := trans

/-- A weaker property of the events. -/
theorem mono (h : Traces P s t) (hPQ : ∀ e, P e → Q e) : Traces Q s t := by
  obtain ⟨new, htrace, hnew⟩ := h
  exact ⟨new, htrace, fun e he => hPQ e (hnew e he)⟩

/-- Recording an allowed access. -/
theorem emit {e : Event} (he : P e) (h : t.trace = e :: s.trace) : Traces P s t :=
  ⟨[e], h, by simpa using he⟩

/-- The accesses since the start of a run are those it allows. -/
theorem of_mem (h : Traces P s t) {e : Event} (he : e ∈ eventsSince s t) : P e := by
  obtain ⟨new, htrace, hnew⟩ := h
  rw [eventsSince_eq htrace] at he
  exact hnew e he

/-- The accesses of two runs in a row. -/
theorem eventsSince_append (h : Traces P s t) (h' : Traces Q t u) :
    eventsSince s u = eventsSince t u ++ eventsSince s t := by
  obtain ⟨new, htrace, -⟩ := h
  obtain ⟨new', htrace', -⟩ := h'
  rw [eventsSince_eq htrace, eventsSince_eq htrace', @eventsSince_eq s u (new' ++ new)]
  simp [htrace, htrace']

end Traces

/-- `t` is reached from `s` by accesses that satisfy `P` and change neither the disk nor the
allocation cursor. -/
structure Observes (v : Volume) (P : Event → Prop) (s t : State) : Prop where
  data : t.data = s.data
  start : t.startSearchCluster = s.startSearchCluster
  behind : ∀ i, v.blockSize ≤ i → t.readBuffer i = s.readBuffer i
  trace : ∃ new, t.trace = new ++ s.trace ∧ ∀ e ∈ new, P e

/-- A disk read. -/
def Event.IsRead (e : Event) : Prop := ∃ address, e = .readSector address

/-- `t` is reached from `s` by reading sectors. -/
abbrev Reads (v : Volume) (s t : State) : Prop := Observes v Event.IsRead s t

section Observes

variable {v : Volume} {P Q : Event → Prop} {s t u : State}

/-- Nothing has been read. -/
theorem Observes.refl (v : Volume) (P : Event → Prop) (s : State) : Observes v P s s :=
  ⟨rfl, rfl, fun _ _ => rfl, Traces.refl P s⟩

section

variable (h : Observes v P s t)
include h

/-- What the trace of a call that reads consists of. -/
theorem Observes.traces : Traces P s t := h.trace

/-- Reads one after the other. -/
theorem Observes.trans (h' : Observes v P t u) : Observes v P s u :=
  ⟨h'.data.trans h.data, h'.start.trans h.start,
    fun i hi => (h'.behind i hi).trans (h.behind i hi), h.traces.trans h'.traces⟩

omit h in
instance : IsPreorder State (Observes v P) where
  refl := Observes.refl v P
  trans _ _ _ := Observes.trans

/-- A wider class of accesses. -/
theorem Observes.mono (hPQ : ∀ e, P e → Q e) : Observes v Q s t :=
  ⟨h.data, h.start, h.behind, h.traces.mono hPQ⟩

/-- An event of a call that reads. -/
theorem Observes.of_mem_eventsSince {e : Event} (he : e ∈ eventsSince s t) :
    P e := h.traces.of_mem he

/-- The events of two calls one after the other. -/
theorem Observes.eventsSince_append (h' : Observes v Q t u) :
    eventsSince s u = eventsSince t u ++ eventsSince s t :=
  h.traces.eventsSince_append h'.traces

end

end Observes

/-- What `readBuffer` holds once the block at `address` has been read. -/
def blockAt (v : Volume) (s : State) (address : ℕ) : Bytes :=
  s.readBuffer.blit 0 (s.data address) v.blockSize

/-- Two states in which every block read from the disk looks the same. -/
structure SameView (v : Volume) (s t : State) : Prop where
  data : t.data = s.data
  behind : ∀ i, v.blockSize ≤ i → t.readBuffer i = s.readBuffer i

/-- Reads leave the disk and the memory behind the buffer as they are. -/
theorem Observes.sameView {v : Volume} {P : Event → Prop} {s t : State} (h : Observes v P s t) :
    SameView v s t := ⟨h.data, h.behind⟩

/-- A state looks like itself. -/
theorem SameView.refl (v : Volume) (s : State) : SameView v s s := ⟨rfl, fun _ _ => rfl⟩

/-- The order of two states does not matter. -/
theorem SameView.symm {v : Volume} {s t : State} (h : SameView v s t) : SameView v t s :=
  ⟨h.data.symm, fun i hi => (h.behind i hi).symm⟩

/-- States that look the same as a third one. -/
theorem SameView.trans {v : Volume} {s t u : State} (h : SameView v s t) (h' : SameView v t u) :
    SameView v s u :=
  ⟨h'.data.trans h.data, fun i hi => (h'.behind i hi).trans (h.behind i hi)⟩

/-- A block in states that look the same. -/
theorem SameView.blockAt_eq {v : Volume} {s t : State} (h : SameView v s t) (address : ℕ) :
    blockAt v t address = blockAt v s address := by
  funext i
  unfold blockAt
  by_cases hi : i < v.blockSize
  · rw [Bytes.blit_of_mem (by omega) (by omega), Bytes.blit_of_mem (by omega) (by omega), h.data]
  · rw [Bytes.blit_of_not_mem (by omega), Bytes.blit_of_not_mem (by omega), h.behind i (by omega)]

/-- Observing a volume does not change its blocks. -/
theorem Observes.blockAt_eq {v : Volume} {P : Event → Prop} {s t : State} (h : Observes v P s t)
    (address : ℕ) : blockAt v t address = blockAt v s address :=
  h.sameView.blockAt_eq address

/-- The state after a read that succeeded. -/
def State.afterRead (v : Volume) (s : State) (address : ℕ) : State :=
  { s with
    readBuffer := blockAt v s address
    trace := .readSector address :: s.trace }

/-- A successful read fills the front of `readBuffer`. -/
theorem readSector_run {v : Volume} (hread : ∀ h a, v.readStatus h a = 0) (address : ℕ)
    (s : State) : (readSector v address).run s = .ok 0 (s.afterRead v address) := by
  change EStateM.Result.ok _ _ = _
  simp only [hread, if_true, State.afterRead, blockAt]

/-- A look at the buffer. -/
@[simp] theorem getReadBuffer_run (s : State) : getReadBuffer.run s = .ok s.readBuffer s := rfl

/-- A block never reaches past `blockSize`. -/
theorem reads_afterRead (v : Volume) (s : State) (address : ℕ) :
    Reads v s (s.afterRead v address) := by
  refine ⟨rfl, rfl, fun i hi => Bytes.blit_of_not_mem (by omega), [.readSector address], rfl, ?_⟩
  intro e he
  exact ⟨address, List.mem_singleton.mp he⟩

/-- A read keeps everything else even when the driver fails. -/
theorem keepsReads_readSector (v : Volume) (address : ℕ) : Keeps (Reads v) (readSector v address) := by
  intro s
  refine ⟨rfl, rfl, fun i hi => ?_, [.readSector address], rfl, ?_⟩
  · change (if v.readStatus s.trace address = 0 then _ else s.readBuffer) i = _
    split
    · exact Bytes.blit_of_not_mem (by omega)
    · rfl
  · intro e he
    exact ⟨address, List.mem_singleton.mp he⟩

/-- A routine that accesses the disk by reading blocks only. -/
inductive ReadsOnly (v : Volume) : {α : Type} → FatM α → Prop
  | pure {α : Type} (a : α) : ReadsOnly v (Pure.pure a : FatM α)
  | throw {α : Type} (e : Halt) : ReadsOnly v (MonadExcept.throw e : FatM α)
  | bind {α β : Type} {x : FatM α} {f : α → FatM β} (hx : ReadsOnly v x)
    (hf : ∀ a, ReadsOnly v (f a)) : ReadsOnly v (x >>= f)
  | readBlock {α : Type} (address : ℕ) {failed : FatM α} {next : Bytes → FatM α}
    (hfailed : ReadsOnly v failed) (hnext : ∀ buffer, ReadsOnly v (next buffer)) :
    ReadsOnly v (do
      let status ← readSector v address
      if status ≠ 0 then failed
      else do
        let buffer ← getReadBuffer
        next buffer)

section ReadsOnly

variable {v : Volume} {α : Type}

/-- A choice of calls that only read. -/
theorem ReadsOnly.ite {c : Prop} [Decidable c] {x y : FatM α} (hx : ReadsOnly v x)
    (hy : ReadsOnly v y) : ReadsOnly v (if c then x else y) := by
  split
  · exact hx
  · exact hy

/-- Such a routine only reads. -/
theorem ReadsOnly.keeps {x : FatM α} (h : ReadsOnly v x) : Keeps (Reads v) x := by
  induction h with
  | pure a => exact fun s => Observes.refl v _ s
  | throw e => exact fun s => Observes.refl v _ s
  | bind _ _ hx hf => exact .bind hx hf
  | readBlock address _ _ hfailed hnext =>
    refine .bind (keepsReads_readSector v address) fun status => ?_
    exact .ite (fun _ => hfailed) fun _ =>
      .bind (fun s => Observes.refl v _ s) hnext

/-- `ReadTable` only reads. -/
theorem readsOnly_readTable (cluster : ℕ) : ReadsOnly v (readTable v cluster) :=
  .ite (.pure 0) (.readBlock _ (.pure 0) fun _ => .pure _)

/-- The scan of a cluster only reads. -/
theorem readsOnly_scanSectors (budget sector n i : ℕ) (sc : Scan) :
    ReadsOnly v (scanSectors v budget sector n i sc) := by
  induction n generalizing i sc with
  | zero => exact .pure _
  | succ n ih =>
    apply ReadsOnly.readBlock _ (.pure _)
    intro buffer
    dsimp only
    split
    · exact .throw _
    · exact .pure _
    · exact ih _ _

/-- The scan of a directory only reads. -/
theorem readsOnly_getDirectoryLoop (rootDirectory : Bool) (budget fuel sector cluster : ℕ)
    (sc : Scan) : ReadsOnly v (getDirectoryLoop v rootDirectory budget fuel sector cluster sc) := by
  induction fuel generalizing sector cluster sc with
  | zero => exact .throw _
  | succ fuel ih =>
    apply ReadsOnly.ite (.pure _)
    apply ReadsOnly.bind (readsOnly_scanSectors _ _ _ _ _)
    intro r
    split
    · exact .pure _
    · exact .ite (ih _ _ _) (.bind (readsOnly_readTable _) fun next => ih _ _ _)

/-- `SeachInDirectory` only reads. -/
theorem readsOnly_seachInDirectory (fuel : ℕ) (name : List UInt8) (dirCluster : ℕ)
    (rootDirectory : Bool) : ReadsOnly v (seachInDirectory v fuel name dirCluster rootDirectory) :=
  .bind (readsOnly_getDirectoryLoop _ _ _ _ _ _) fun _ => .pure _

/-- The walk along a path only reads. -/
theorem readsOnly_walkPath (fuel : ℕ) (parts : List (List UInt8)) (searchCluster : ℕ)
    (first : Bool) : ReadsOnly v (walkPath v fuel parts searchCluster first) := by
  induction parts generalizing searchCluster first with
  | nil => exact .pure _
  | cons part rest ih =>
    apply ReadsOnly.bind (readsOnly_seachInDirectory _ _ _ _)
    intro r
    split
    · exact .pure _
    · exact .ite (.pure _) (.ite (ih _ _) (.pure _))

/-- `GetEntryByPath` only reads. -/
theorem readsOnly_getEntryByPath (fuel : ℕ) (path : List UInt8) :
    ReadsOnly v (getEntryByPath v fuel path) :=
  .ite (readsOnly_seachInDirectory _ _ _ _) (readsOnly_walkPath _ _ _ _)

end ReadsOnly

/-- Path resolution only reads. -/
theorem keepsReads_getEntryByPath (v : Volume) (fuel : ℕ) (path : List UInt8) :
    Keeps (Reads v) (getEntryByPath v fuel path) :=
  (readsOnly_getEntryByPath fuel path).keeps

/-- The entry `ReadTable` finds for a cluster when the disk answers: 0 outside of the numbers
it accepts. The bytes behind `readBuffer` take part when the entry reaches past the block. -/
def tableEntry (v : Volume) (s : State) (cluster : ℕ) : ℕ :=
  if cluster < 2 ∨ v.totalClusters < cluster then 0
  else tableValue v cluster (blockAt v s (lba v (fatSector v cluster) 0))

/-- `ReadTable` on a disk that answers. -/
theorem readTable_run {v : Volume} (hread : ∀ h a, v.readStatus h a = 0) (cluster : ℕ)
    (s : State) :
    ∃ t, (readTable v cluster).run s = .ok (tableEntry v s cluster) t ∧ Reads v s t := by
  unfold readTable tableEntry
  by_cases hc : cluster < 2 ∨ v.totalClusters < cluster
  · rw [if_pos hc, if_pos hc]
    exact ⟨s, rfl, Observes.refl v _ s⟩
  · rw [if_neg hc, if_neg hc, bind_of_ok (readSector_run hread _ s)]
    exact ⟨_, rfl, reads_afterRead v s _⟩

/-- Observing a volume does not change what its table says. -/
theorem SameView.tableEntry_eq {v : Volume} {s t : State} (h : SameView v s t) (cluster : ℕ) :
    tableEntry v t cluster = tableEntry v s cluster := by
  unfold tableEntry
  rw [h.blockAt_eq]

/-- Reads do not change what `ReadTable` reads. -/
theorem Observes.tableEntry_eq {v : Volume} {P : Event → Prop} {s t : State}
    (h : Observes v P s t) (cluster : ℕ) : tableEntry v t cluster = tableEntry v s cluster :=
  h.sameView.tableEntry_eq cluster

/-- Two states that also agree on the buffered block. -/
def SameBuffer (v : Volume) (s t : State) : Prop := SameView v s t ∧ t.readBuffer = s.readBuffer

section Twin

variable {v : Volume} (hread : ∀ h a, v.readStatus h a = 0)
include hread

/-- After a read the buffers agree. -/
theorem twin_readSector (address : ℕ) :
    Twin (SameView v) (SameBuffer v) (readSector v address) := by
  intro s t h
  left
  refine ⟨0, _, _, readSector_run hread address s, readSector_run hread address t, ?_, ?_⟩
  · constructor
    · exact h.data
    · intro i hi
      rw [(reads_afterRead v t address).behind i hi, (reads_afterRead v s address).behind i hi]
      exact h.behind i hi
  · exact h.blockAt_eq address

omit hread in
/-- The buffer is the same in states with the same buffer. -/
theorem twin_getReadBuffer : Twin (SameBuffer v) (SameView v) getReadBuffer := by
  intro s t h
  left
  refine ⟨s.readBuffer, s, t, rfl, ?_, h.1⟩
  rw [getReadBuffer_run, h.2]

/-- A routine that only reads returns the same as long as the disk stays as it is. -/
theorem ReadsOnly.twin {α : Type} {x : FatM α} (h : ReadsOnly v x) :
    Twin (SameView v) (SameView v) x := by
  induction h with
  | pure a => exact Twin.pure (fun _ _ h => h) a
  | throw e => exact Twin.throw e
  | bind _ _ hx hf => exact Twin.bind hx hf
  | readBlock address _ _ hfailed hnext =>
    apply Twin.bind (twin_readSector hread address)
    intro status
    exact Twin.ite (fun s t h => hfailed s t h.1) (Twin.bind twin_getReadBuffer hnext)

end Twin

end Vsos.Fat
