import Vsos.Fat.File
import Vsos.Fat.Reading

/-!
# Which routines touch the caller's buffer

Every routine only adds to the history of accesses. Apart from the two loops that move file
data, none of them loads from the caller's buffer or stores into it, whatever the driver
answers and wherever the run ends.
-/

namespace Vsos.Fat

open Vsos.Lib

/-- An access to the caller's data buffer. -/
def Event.OnBuffer : Event → Prop
  | .load _ _ => True
  | .store _ _ => True
  | _ => False

/-- `t` is reached from `s` without an access to the caller's buffer. -/
abbrev Quiet (s t : State) : Prop := Traces (fun e => ¬ e.OnBuffer) s t

/-- Reading sectors does not touch the caller's buffer. -/
theorem Observes.quiet {v : Volume} {s t : State} (h : Reads v s t) : Quiet s t := by
  apply h.traces.mono
  rintro _ ⟨address, rfl⟩
  simp [Event.OnBuffer]

section Quiet

variable (v : Volume)

/-- A halt is quiet. -/
theorem keepsQuiet_throw {α : Type} (e : Halt) : Keeps Quiet (throw e : FatM α) :=
  fun s => Traces.refl _ s

/-- A call that only reads is quiet. -/
theorem keepsQuiet_of_reads {α : Type} {x : FatM α} (h : Keeps (Reads v) x) : Keeps Quiet x :=
  fun s => (h s).quiet

/-- A change of the buffer is quiet. -/
theorem keepsQuiet_modifyReadBuffer (f : Bytes → Bytes) : Keeps Quiet (modifyReadBuffer f) :=
  fun s => Traces.refl _ s

/-- An access that is not to the caller's buffer is quiet. -/
theorem keepsQuiet_emit {e : Event} (he : ¬ e.OnBuffer) : Keeps Quiet (emit e) :=
  fun _ => Traces.emit he rfl

/-- A write is quiet. -/
theorem keepsQuiet_writeSector (address : ℕ) (src : Bytes) :
    Keeps Quiet (writeSector v address src) :=
  fun _ => Traces.emit (by simp [Event.OnBuffer]) rfl

/-- A read is quiet. -/
theorem keepsQuiet_readSector (address : ℕ) : Keeps Quiet (readSector v address) :=
  keepsQuiet_of_reads v (keepsReads_readSector v address)

/-- A look at the buffer is quiet. -/
theorem keepsQuiet_getReadBuffer : Keeps Quiet getReadBuffer := fun s => Traces.refl _ s

/-- A write of the buffer is quiet. -/
theorem keepsQuiet_writeReadBuffer (address : ℕ) : Keeps Quiet (writeReadBuffer v address) :=
  .bind keepsQuiet_getReadBuffer fun b => keepsQuiet_writeSector v address b

/-- `ReadTable` is quiet. -/
theorem keepsQuiet_readTable (cluster : ℕ) : Keeps Quiet (readTable v cluster) :=
  keepsQuiet_of_reads v (readsOnly_readTable cluster).keeps

/-- `GetEntryByPath` is quiet. -/
theorem keepsQuiet_getEntryByPath (fuel : ℕ) (path : List UInt8) :
    Keeps Quiet (getEntryByPath v fuel path) :=
  keepsQuiet_of_reads v (keepsReads_getEntryByPath v fuel path)

/-- Read a sector, change the buffered copy and write it back, with a way out on failure. -/
theorem keepsQuiet_update {α : Type} (address : ℕ) (f : Bytes → Bytes) (failed : FatM α)
    (next : ℤ → FatM α) (hfailed : Keeps Quiet failed) (hnext : ∀ status, Keeps Quiet (next status)) :
    Keeps Quiet (do
      let status ← readSector v address
      if status ≠ 0 then failed
      else do
        modifyReadBuffer f
        let status ← writeReadBuffer v address
        next status) := by
  apply Keeps.bind (keepsQuiet_readSector v address)
  intro status
  apply Keeps.ite
  · exact fun _ => hfailed
  · intro _
    apply Keeps.bind (keepsQuiet_modifyReadBuffer f)
    intro _
    exact .bind (keepsQuiet_writeReadBuffer v address) hnext

/-- `WriteTable` is quiet. -/
theorem keepsQuiet_writeTable (cluster value : ℕ) : Keeps Quiet (writeTable v cluster value) := by
  apply Keeps.ite
  · exact fun _ => .pure ()
  · exact fun _ => keepsQuiet_update v _ _ _ _ (.pure ()) fun _ => .pure ()

/-- The search for a free cluster is quiet. -/
theorem keepsQuiet_allocateLoop (n cluster : ℕ) : Keeps Quiet (allocateLoop v n cluster) := by
  induction n generalizing cluster with
  | zero => exact .pure 0
  | succ n ih =>
    apply Keeps.bind (keepsQuiet_readTable v cluster)
    intro value
    apply Keeps.ite
    · intro _
      refine .bind (fun s => Traces.refl _ s) fun _ => ?_
      exact .bind (keepsQuiet_writeTable v _ _) fun _ => .pure _
    · exact fun _ => ih (cluster + 1)

/-- `AllocateCluster` is quiet. -/
theorem keepsQuiet_allocateCluster : Keeps Quiet (allocateCluster v) := by
  refine .bind (fun s => Traces.refl _ s) fun start => ?_
  apply Keeps.bind (keepsQuiet_allocateLoop v _ _)
  intro cluster
  exact .bind (keepsQuiet_emit (by simp [Event.OnBuffer])) fun _ => .pure _

/-- The loop of `ClearCluster` is quiet. -/
theorem keepsQuiet_clearLoop (sector n i : ℕ) : Keeps Quiet (clearLoop v sector n i) := by
  induction n generalizing i with
  | zero => exact .pure ()
  | succ n ih =>
    apply Keeps.bind (keepsQuiet_writeReadBuffer v _)
    intro status
    exact .ite (fun _ => .pure ()) fun _ => ih (i + 1)

/-- `ClearCluster` is quiet. -/
theorem keepsQuiet_clearCluster (cluster : ℕ) : Keeps Quiet (clearCluster v cluster) :=
  .bind (keepsQuiet_modifyReadBuffer _) fun _ => keepsQuiet_clearLoop v _ _ _

/-- The search for free slots in a cluster only reads. -/
theorem readsOnly_searchSectors (budget cluster sector entryCount n i : ℕ) (st : Search) :
    ReadsOnly v (searchSectors v budget cluster sector entryCount n i st) := by
  induction n generalizing i st with
  | zero => exact .pure _
  | succ n ih =>
    apply ReadsOnly.readBlock _ (.pure _)
    intro buffer
    dsimp only
    split
    · exact .throw _
    · exact .pure _
    · exact ih _ _

/-- The search for free slots is quiet. -/
theorem keepsQuiet_findEntryLoop (entryCount : ℕ) (rootDirectory : Bool) (budget fuel sector cluster : ℕ)
    (st : Search) :
    Keeps Quiet (findEntryLoop v entryCount rootDirectory budget fuel sector cluster st) := by
  induction fuel generalizing sector cluster st with
  | zero => exact keepsQuiet_throw _
  | succ fuel ih =>
    refine .ite (fun _ => .pure _) fun _ => ?_
    apply Keeps.bind (keepsQuiet_of_reads v (readsOnly_searchSectors v _ _ _ _ _ _ _).keeps)
    intro r
    split
    · exact .pure _
    · apply Keeps.ite
      · exact fun _ => .ite (fun _ => .pure _) fun _ => ih _ _ _
      · intro _
        apply Keeps.bind (keepsQuiet_readTable v _)
        intro next
        apply Keeps.ite
        · intro _
          apply Keeps.bind (keepsQuiet_allocateCluster v)
          intro newCluster
          apply Keeps.bind (keepsQuiet_clearCluster v _)
          intro _
          exact .bind (keepsQuiet_writeTable v _ _) fun _ => ih _ _ _
        · exact fun _ => ih _ _ _

/-- Writing long-name slots is quiet. -/
theorem keepsQuiet_writeLongLoop (targetSector : ℕ) (rootDirectory : Bool) (entries : List Bytes)
    (i sector targetCluster sectorOffset : ℕ) :
    Keeps Quiet (writeLongLoop v targetSector rootDirectory entries i sector targetCluster sectorOffset) := by
  induction entries generalizing i sector targetCluster sectorOffset with
  | nil => exact .pure _
  | cons target rest ih =>
    apply keepsQuiet_update v _ _ _ _ (.pure false)
    intro status
    refine .ite (fun _ => .pure _) fun _ => ?_
    apply Keeps.ite
    · intro _
      apply Keeps.ite (fun _ => ih _ _ _ _)
      intro _
      apply Keeps.ite
      · exact fun _ => .bind (keepsQuiet_readTable v _) fun _ => ih _ _ _ _
      · exact fun _ => ih _ _ _ _
    · exact fun _ => ih _ _ _ _

/-- Finding the place of the 8.3 entry is quiet. -/
theorem keepsQuiet_entryPlace (target : Target) (count : ℕ) (rootDirectory : Bool) :
    Keeps Quiet (entryPlace v target count rootDirectory) := by
  apply Keeps.ite
  · exact fun _ => .ite (fun _ => .pure _) fun _ => .pure _
  · intro _
    apply Keeps.ite
    · intro _
      apply Keeps.ite
      · intro _
        apply Keeps.bind (keepsQuiet_readTable v _)
        intro next
        apply Keeps.ite
        · intro _
          apply Keeps.bind (keepsQuiet_allocateCluster v)
          intro tmp
          apply Keeps.bind (keepsQuiet_clearCluster v _)
          intro _
          exact .bind (keepsQuiet_writeTable v _ _) fun _ => .pure _
        · exact fun _ => .pure _
      · exact fun _ => .pure _
    · exact fun _ => .pure _

/-- The part of `CreateEntry` after the long-name slots were written. -/
def placeEntry (v : Volume) (shortName : Bytes) (attr : ℕ) (rootDirectory : Bool) (targetCluster count : ℕ)
    (target : Target) : FatM (Option ℕ) := do
  let place ← entryPlace v target count rootDirectory
  let date ← fatDate v
  let time ← fatTime v
  let entry := newDirectoryEntry shortName attr targetCluster date time
  let written ← writeDirectoryEntry v entry place.1 place.2
  if written = false then return none
  else return some place.2

/-- The part of `CreateEntry` after the slots were found. -/
def fillSlots (v : Volume) (name : List UInt8) (attr : ℕ) (rootDirectory : Bool) (targetCluster : ℕ)
    (target : Target) : FatM (Option ℕ) :=
  let count := requiredLFNEntries (name.length % 256)
  match createShortFilename name with
  | none => throw .fault
  | some shortName => do
    let lfnEntries := createLFNEntriesFromName name count (checksum shortName)
    let written ← writeLongFilenameEntries v lfnEntries target rootDirectory
    if written = false then return none
    else placeEntry v shortName attr rootDirectory targetCluster count target

/-- `CreateEntry` finds free slots and fills them. -/
theorem createEntry_eq (v : Volume) (fuel parentCluster : ℕ) (name : List UInt8) (attr : ℕ)
    (rootDirectory : Bool) (targetCluster : ℕ) :
    createEntry v fuel parentCluster name attr rootDirectory targetCluster =
      if name.length % 256 = 0 then return none
      else (do
        match ← findEntryStartpoint v fuel parentCluster (requiredLFNEntries (name.length % 256) + 1)
            rootDirectory with
        | none => return none
        | some target => fillSlots v name attr rootDirectory targetCluster target) := by
  rfl

/-- Writing the 8.3 entry is quiet. -/
theorem keepsQuiet_placeEntry (shortName : Bytes) (attr : ℕ) (rootDirectory : Bool) (targetCluster count : ℕ)
    (target : Target) :
    Keeps Quiet (placeEntry v shortName attr rootDirectory targetCluster count target) := by
  apply Keeps.bind (keepsQuiet_entryPlace v _ _ _)
  intro place
  refine .bind (fun s => Traces.refl _ s) fun date => ?_
  refine .bind (fun s => Traces.refl _ s) fun time => ?_
  apply Keeps.bind
  · exact keepsQuiet_update v _ _ _ _ (.pure _) fun _ => .pure _
  · exact fun _ => .ite (fun _ => .pure _) fun _ => .pure _

/-- Filling the slots is quiet. -/
theorem keepsQuiet_fillSlots (name : List UInt8) (attr : ℕ) (rootDirectory : Bool) (targetCluster : ℕ)
    (target : Target) : Keeps Quiet (fillSlots v name attr rootDirectory targetCluster target) := by
  unfold fillSlots
  split
  · exact keepsQuiet_throw _
  · apply Keeps.bind (keepsQuiet_writeLongLoop v _ _ _ _ _ _ _)
    intro written
    exact .ite (fun _ => .pure _) fun _ => keepsQuiet_placeEntry v _ _ _ _ _ _

/-- `CreateEntry` is quiet. -/
theorem keepsQuiet_createEntry (fuel parentCluster : ℕ) (name : List UInt8) (attr : ℕ)
    (rootDirectory : Bool) (targetCluster : ℕ) :
    Keeps Quiet (createEntry v fuel parentCluster name attr rootDirectory targetCluster) := by
  refine .ite (fun _ => .pure _) fun _ => ?_
  apply Keeps.bind (keepsQuiet_findEntryLoop v _ _ _ _ _ _ _)
  intro r
  split
  · exact .pure _
  · exact keepsQuiet_fillSlots v _ _ _ _ _

/-- Making the dot entries of a new directory is quiet. -/
theorem keepsQuiet_finishNewEntry (isDir : Bool) (entryRootCluster offset : ℕ) :
    Keeps Quiet (finishNewEntry v isDir entryRootCluster offset) := by
  apply Keeps.bind keepsQuiet_getReadBuffer
  intro buffer
  apply Keeps.bind (keepsQuiet_clearCluster v _)
  intro _
  apply Keeps.ite
  · exact fun _ => keepsQuiet_update v _ _ _ _ (.pure _) fun _ => .pure _
  · exact fun _ => .pure _

/-- Creating an entry does not touch a data buffer. -/
theorem keepsQuiet_createNewDirFileEntry (fuel : ℕ) (path : List UInt8) (attributes : ℕ) :
    Keeps Quiet (createNewDirFileEntry v fuel path attributes) := by
  apply Keeps.ite
  · intro _
    apply Keeps.bind (keepsQuiet_allocateCluster v)
    intro newCluster
    apply Keeps.bind (keepsQuiet_createEntry v _ _ _ _ _ _)
    intro r
    split
    · exact .pure _
    · exact keepsQuiet_finishNewEntry v _ _ _
  · intro _
    apply Keeps.bind (keepsQuiet_emit (by simp [Event.OnBuffer]))
    intro _
    apply Keeps.bind (keepsQuiet_getEntryByPath v _ _)
    intro r
    split
    · exact .pure _
    · apply Keeps.bind (keepsQuiet_allocateCluster v)
      intro newCluster
      apply Keeps.bind (keepsQuiet_createEntry v _ _ _ _ _ _)
      intro r
      split
      · exact .pure _
      · exact keepsQuiet_finishNewEntry v _ _ _

/-- `FileExists` is quiet. -/
theorem keepsQuiet_fileExists (fuel : ℕ) (path : List UInt8) :
    Keeps Quiet (fileExists v fuel path) := by
  apply Keeps.bind (keepsQuiet_getEntryByPath v fuel path)
  intro r
  split
  · exact .pure _
  · exact .pure _

/-- Updating an entry does not touch a data buffer. -/
theorem keepsQuiet_modifyEntry (entry : FATEntryInfo) (newVersion : Bytes) :
    Keeps Quiet (modifyEntry v entry newVersion) := by
  apply Keeps.bind (keepsQuiet_readSector v _)
  intro status
  refine .ite (fun _ => .pure _) fun _ => ?_
  apply Keeps.bind keepsQuiet_getReadBuffer
  intro buffer
  refine .ite (fun _ => .pure _) fun _ => ?_
  apply Keeps.bind (keepsQuiet_modifyReadBuffer _)
  intro _
  exact .bind (keepsQuiet_writeReadBuffer v _) fun _ => .pure _

/-- Updating the entry of a file is quiet. -/
theorem keepsQuiet_updateEntry (entry : FATEntryInfo) (len : ℕ) :
    Keeps Quiet (updateEntry v entry len) := by
  refine .bind (fun s => Traces.refl _ s) fun date => ?_
  refine .bind (fun s => Traces.refl _ s) fun time => ?_
  exact .bind (keepsQuiet_modifyEntry v _ _) fun _ => .pure _

end Quiet

end Vsos.Fat
