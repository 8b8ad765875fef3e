import Vsos.Fat.Allocation
import Vsos.Fat.Endless
import Vsos.Fat.Paths
import Vsos.Fat.WriteBounds

/-!
# Calls that are refused without a write

A call that creates an entry allocates a cluster before it looks for slots, and looks for slots
without a look at what kind of entry its parent is. It returns without a write only if there is
nothing to allocate and no slot to take: the cursor is at the end of the table and the search comes
to an end where it cannot extend the directory. Whether this is so can be told from the disk in front
of the call.
-/

namespace Vsos.Fat

open Vsos.Lib

variable {v : Volume} {s t u : State} {P : Event → Prop} {fuel targetCluster : ℕ}
  {path : List UInt8} {target : Target} {r : Option ℕ}

/-! ## Writing and not writing -/

/-- A sector was written between two states of a run. -/
def Wrote (s t : State) : Prop := ∃ a, Event.writeSector a ∈ eventsSince s t

/-- Any access but a write. -/
def Event.IsSilent (e : Event) : Prop := ∀ a, e ≠ .writeSector a

/-- `t` is reached from `s` without a write. -/
abbrev Silent (v : Volume) (s t : State) : Prop := Observes v Event.IsSilent s t

/-- A call that only reads is silent. -/
theorem Observes.silent (h : Reads v s t) : Silent v s t := by
  apply h.mono
  rintro _ ⟨address, rfl⟩ a
  simp

/-- A silent call has not written. -/
theorem Observes.not_wrote (h : Silent v s t) : ¬ Wrote s t := by
  rintro ⟨a, ha⟩
  exact h.of_mem_eventsSince ha a rfl

/-- Recording an access that is not a write. -/
theorem silent_emit {e : Event} (he : e.IsSilent) (s : State) :
    Silent v s { s with trace := e :: s.trace } :=
  ⟨rfl, rfl, fun _ _ => rfl, [e], rfl, by simpa using he⟩

/-- A write in the trace. -/
theorem wrote_of_trace (a : ℕ) (new : List Event) (h : t.trace = .writeSector a :: new ++ s.trace) :
    Wrote s t :=
  ⟨a, by rw [eventsSince_eq h]; exact List.mem_cons_self⟩

/-- A sector that is written back. -/
theorem wrote_afterUpdate (v : Volume) (s : State) (address : ℕ) (f : Bytes → Bytes) :
    Wrote s (s.afterUpdate v address f) :=
  wrote_of_trace address [.readSector address] rfl

/-- A write stays on the record. -/
theorem Wrote.append {Q : Event → Prop} (hw : Wrote s t) (h : Traces P s t) (h' : Traces Q t u) :
    Wrote s u := by
  obtain ⟨a, ha⟩ := hw
  exact ⟨a, by rw [h.eventsSince_append h']; exact List.mem_append_right _ ha⟩

/-- A write in the second part of a run. -/
theorem Wrote.prepend {Q : Event → Prop} (h : Traces P s t) (h' : Traces Q t u) (hw : Wrote t u) :
    Wrote s u := by
  obtain ⟨a, ha⟩ := hw
  exact ⟨a, mem_eventsSince_of_traces h h' ha⟩

/-! ## Allocating nothing -/

/-- `AllocateCluster` marks no entry: its search starts in front of the first one, or meets none that
is free. -/
def AllocatesNone (v : Volume) (s : State) : Prop :=
  s.startSearchCluster < 2 ∨
    ∀ k, s.startSearchCluster ≤ k → k < v.totalClusters → tableEntry v s k ≠ 0

/-- Reads free no cluster. -/
theorem Observes.allocatesNone_iff (h : Observes v P s t) :
    AllocatesNone v t ↔ AllocatesNone v s := by
  simp only [AllocatesNone, h.start, h.tableEntry_eq]

section Allocation

variable (hdev : v.AlwaysSucceeds)
include hdev

/-- A search that finds no free cluster only reads. -/
theorem allocateLoop_silent {n c : ℕ} (h : ∀ k, c ≤ k → k < c + n → tableEntry v s k ≠ 0) :
    ∃ t, (allocateLoop v n c).run s = .ok 0 t ∧ Reads v s t := by
  induction n generalizing c s with
  | zero => exact ⟨s, rfl, Observes.refl v _ s⟩
  | succ n ih =>
    obtain ⟨t, hread, hreads⟩ := readTable_run hdev.1 c s
    obtain ⟨u, hrun, hreads'⟩ := ih (c := c + 1) fun k hk hk' => by
      rw [hreads.tableEntry_eq]
      exact h k (by omega) (by omega)
    refine ⟨u, ?_, hreads.trans hreads'⟩
    have hused : tableEntry v s c ≠ clusterFree := h c (le_refl c) (by omega)
    rw [allocateLoop, bind_of_ok hread, if_neg hused]
    exact hrun

/-- A search that finds a free cluster writes. -/
theorem allocateLoop_wrote {n c k : ℕ} (hlow : 2 ≤ c) (hhigh : c + n ≤ v.totalClusters + 1) (hk : c ≤ k)
    (hk' : k < c + n) (hfree : tableEntry v s k = 0) :
    ∃ r t, (allocateLoop v n c).run s = .ok r t ∧ Wrote s t := by
  induction n generalizing c s with
  | zero => omega
  | succ n ih =>
    obtain ⟨t, hread, hreads⟩ := readTable_run hdev.1 c s
    rw [allocateLoop, bind_of_ok hread]
    by_cases hhere : tableEntry v s c = clusterFree
    · obtain ⟨new, htrace, -⟩ := hreads.trace
      rw [if_pos hhere, setStartSearchCluster, bind_change,
        bind_of_ok (writeTable_afterStore hdev ⟨hlow, by omega⟩ _ _)]
      let a := lba v (fatSector v c) 0
      refine ⟨c, _, rfl, wrote_of_trace a (.readSector a :: new) ?_⟩
      simp only [State.afterStore, htrace]
      rfl
    · have hne : c ≠ k := by
        rintro rfl
        exact hhere hfree
      obtain ⟨r, u, hrun, hwrote⟩ := ih (c := c + 1) (by omega) (by omega) (by omega) (by omega)
        (by rw [hreads.tableEntry_eq, hfree])
      have htraces : Traces (fun e => ¬ e.OnBuffer) t u := (keepsQuiet_allocateLoop v n (c + 1)).of_ok hrun
      rw [if_neg hhere]
      exact ⟨r, u, hrun, hwrote.prepend hreads.traces htraces⟩

/-- With nothing to allocate, `AllocateCluster` is silent. -/
theorem allocateCluster_silent (h : AllocatesNone v s) :
    ∃ r t, (allocateCluster v).run s = .ok r t ∧ Silent v s t := by
  by_cases hstart : s.startSearchCluster < 2
  · exact ⟨_, _, allocateCluster_low hstart, silent_emit (by simp [Event.IsSilent]) s⟩
  · obtain ⟨t, hrun, hreads⟩ := allocateLoop_silent hdev
      (n := v.totalClusters - s.startSearchCluster)
      fun k hk hk' => h.resolve_left hstart k hk (by omega)
    refine ⟨0, { t with trace := .allocated 0 :: t.trace }, ?_,
      hreads.silent.trans (silent_emit (by simp [Event.IsSilent]) t)⟩
    rw [allocateCluster, bind_look, bind_of_ok hrun]
    rfl

/-- An allocation marks its cluster on the disk. -/
theorem allocateCluster_wrote (h : ¬ AllocatesNone v s) :
    ∃ r t, (allocateCluster v).run s = .ok r t ∧ Wrote s t := by
  obtain ⟨hstart, hsome⟩ := not_or.mp h
  push Not at hsome
  obtain ⟨k, hk, hk', hfree⟩ := hsome
  obtain ⟨r, t, hrun, hwrote⟩ := allocateLoop_wrote hdev
    (n := v.totalClusters - s.startSearchCluster) (by omega) (by omega) hk (by omega) hfree
  have htraces : Traces (fun e => ¬ e.OnBuffer) s t := (keepsQuiet_allocateLoop v _ _).of_ok hrun
  refine ⟨r, { t with trace := .allocated r :: t.trace }, ?_,
    hwrote.append htraces (silent_emit (v := v) (by simp [Event.IsSilent]) t).traces⟩
  rw [allocateCluster, bind_look, bind_of_ok hrun]
  rfl

/-- `ClearCluster` writes, whatever number it is given. -/
theorem clearCluster_wrote (c : ℕ) (s : State) :
    ∃ t, (clearCluster v c).run s = .ok () t ∧ Wrote s t := by
  obtain ⟨n, hn⟩ := Nat.exists_eq_succ_of_ne_zero v.sectorsPerCluster_pos.ne'
  have hclear (n i : ℕ) (s : State) : ∃ t, (clearLoop v (clusterToSector v c) n i).run s = .ok () t := by
    induction n generalizing i s with
    | zero => exact ⟨s, rfl⟩
    | succ n ih =>
      rw [clearLoop, bind_of_ok (writeReadBuffer_run hdev.2 _ s)]
      exact ih _ _
  rw [clearCluster, bind_of_ok (modifyReadBuffer_run _ s), hn, clearLoop,
    bind_of_ok (writeReadBuffer_run hdev.2 _ _)]
  obtain ⟨t, hrun⟩ := hclear n (0 + 1) _
  refine ⟨t, hrun, ?_⟩
  have htraces := (keepsQuiet_clearLoop v _ _ _).of_ok hrun
  exact (wrote_of_trace _ [] rfl).append (Traces.emit (P := fun _ => True) trivial rfl) htraces

end Allocation

/-! ## Finding nothing -/

/-- The search for `n` free slots comes to the end of what it looks through without a place to extend
the directory at: to a link that is free, to the last window of a fixed root, or to a first cluster
that ends the chain. The sectors of 256 slots or more are never left. -/
def GivesUp (v : Volume) (s : State) (rootDirectory : Bool) (c n : ℕ) : Prop :=
  ChainStops v c ∨ v.slotsPerSector < 256 ∧
    ∃ K, (∀ k < K, ¬ SearchStops v s rootDirectory c n k ∧ ¬ GrowsAt v s rootDirectory c k) ∧
      (ChainStops v (positionAt v s rootDirectory c K).2 ∨
        ¬ RunEndsIn v s rootDirectory c n K ∧ LastWindow v s rootDirectory c K)

/-- What the search looks at depends on the blocks only. -/
theorem SameView.positionAt_eq (h : SameView v s t) (rootDirectory : Bool) (c k : ℕ) :
    positionAt v t rootDirectory c k = positionAt v s rootDirectory c k := by
  induction k with
  | zero => rfl
  | succ k ih => rw [positionAt_succ, positionAt_succ, windowStart, windowStart, ih, h.tableEntry_eq]

/-- Giving up depends on what is read. -/
theorem SameView.givesUp_iff (h : SameView v s t) (rootDirectory : Bool) (c n : ℕ) :
    GivesUp v t rootDirectory c n ↔ GivesUp v s rootDirectory c n := by
  have hstart (k : ℕ) : windowStart v t rootDirectory c k = windowStart v s rootDirectory c k := by
    rw [windowStart, windowStart, h.positionAt_eq]
  have hfree : WalkFree v t rootDirectory c = WalkFree v s rootDirectory c := by
    funext m
    rw [WalkFree, WalkFree, hstart, windowSlot, windowSlot, h.blockAt_eq]
  simp only [GivesUp, SearchStops, GrowsAt, RunEndsIn, LastWindow, h.positionAt_eq, hstart, hfree,
    h.tableEntry_eq]

section Search

variable (hdev : v.AlwaysSucceeds) {rootDirectory : Bool} {c n : ℕ}
include hdev

/-- A search that gives up has only read. -/
theorem findEntryStartpoint_of_givesUp (hn : 0 < n) (hn' : n < 2 ^ 32)
    (h : GivesUp v s rootDirectory c n) :
    ∃ t, Returns (fun fuel => findEntryStartpoint v fuel c n rootDirectory) s none t ∧ Reads v s t := by
  have hstable := findEntryStartpoint_stable v c n rootDirectory
  by_cases hfirst : ChainStops v c
  · refine ⟨s, hstable.returns (n := 1) ?_, Observes.refl v _ s⟩
    change (findEntryLoop v n rootDirectory 1 1 0 c _).run s = _
    rw [findEntryLoop, if_pos hfirst]
    rfl
  obtain ⟨hslots, K, hgo, hlast⟩ := h.resolve_left hfirst
  let budget := v.slotsPerSector + 1
  have hbudget : v.slotsPerSector < budget := Nat.lt_succ_self _
  obtain ⟨x, t, hreads, hK, hreach⟩ := (driven_findEntryLoop hdev.1 hslots hn' hbudget).reaches
    (x := searchStartAt v s rootDirectory c hn) (Observes.refl v _ s) (Or.inr trivial)
    fun j hj => by
      rw [searchStartAt_k, iterate_succ_zero]
      exact not_or.mpr (hgo j hj)
  rw [searchStartAt_k, iterate_succ_zero] at hK
  obtain ⟨u, hrun, hreads'⟩ : ∃ u, (SearchAt.run budget 1 x).run t = .ok none u ∧ Reads v t u := by
    by_cases hchain : ChainStops v (positionAt v s rootDirectory c x.k).2
    · refine ⟨t, ?_, Observes.refl v _ t⟩
      rw [SearchAt.run, findEntryLoop, if_pos hchain]
      rfl
    · obtain ⟨hnone, hroot, hend⟩ := (hK ▸ hlast).resolve_left hchain
      obtain ⟨st', u, hreads', -, hrun⟩ := x.run_of_not_found hdev.1 hslots hn' hbudget hreads hchain hnone
      refine ⟨u, ?_, hreads'⟩
      rw [hrun 0, if_pos hroot, if_pos hend]
      rfl
  refine ⟨u, hstable.returns (n := 1 + K + budget) ?_, hreads.trans hreads'⟩
  exact findEntryLoop_stable v n rootDirectory (by omega) (by omega) ((hreach 1).trans hrun)

/-- A search in sectors that it never leaves has found something when it returns. -/
theorem findEntryStartpoint_wide (hslots : 256 ≤ v.slotsPerSector) {r : Option Target}
    (hgo : ¬ ChainStops v c)
    (hrun : (findEntryStartpoint v fuel c n rootDirectory).run s = .ok r t) :
    (∃ target, r = some target) ∧ Reads v s t := by
  obtain ⟨m, hm⟩ := Nat.exists_eq_succ_of_ne_zero v.sectorsPerCluster_pos.ne'
  cases fuel with
  | zero => cases hrun
  | succ fuel =>
    change (findEntryLoop v n rootDirectory (fuel + 1) (fuel + 1) 0 c _).run s = _ at hrun
    rw [findEntryLoop, if_neg hgo] at hrun
    obtain ⟨result, t₁, hsearch, hrun⟩ := bind_eq_ok.mp hrun
    have hreads := (readsOnly_searchSectors v _ _ _ _ _ _ _).keeps.of_ok hsearch
    rw [hm, searchSectors, bind_of_ok (readSector_run hdev.1 _ s), if_neg (by simp),
      bind_of_ok (getReadBuffer_run _)] at hsearch
    dsimp only at hsearch
    split at hsearch
    · cases hsearch
    · cases hsearch
      cases hrun
      exact ⟨⟨_, rfl⟩, hreads⟩
    · next hloop => exact absurd hloop (loop8_wide hslots (by decide))

/-- A search that does not give up finds slots, or writes. -/
theorem findEntryStartpoint_of_not_givesUp (hn : 0 < n) (hn' : n < 2 ^ 32)
    (h : ¬ GivesUp v s rootDirectory c n) (hfuel : v.slotsPerSector < fuel) {r : Option Target}
    (hrun : (findEntryStartpoint v fuel c n rootDirectory).run s = .ok r t) :
    (∃ target, r = some target) ∧ Reads v s t ∨ Wrote s t := by
  obtain ⟨hfirst, hlater⟩ := not_or.mp h
  by_cases hslots : v.slotsPerSector < 256
  case neg => exact Or.inl (findEntryStartpoint_wide hdev (Nat.not_lt.mp hslots) hfirst hrun)
  have hdriven : Driven (fun fuel' (x : SearchAt v s rootDirectory c n) => SearchAt.run fuel fuel' x) _ _ _ _ _ :=
    driven_findEntryLoop hdev.1 hslots hn' hfuel
  have hex := hdriven.exists_stop (x := searchStartAt v s rootDirectory c hn) (Observes.refl v _ s) hrun
  simp only [searchStartAt_k, iterate_succ_zero, or_true, true_and] at hex
  classical
  let K := Nat.find hex
  have hgo (k : ℕ) (hk : k < K) : ¬ SearchStops v s rootDirectory c n k ∧ ¬ GrowsAt v s rootDirectory c k :=
    not_or.mp (Nat.find_min hex hk)
  obtain ⟨x, t₁, hreads, hK, hreach⟩ := hdriven.reaches (x := searchStartAt v s rootDirectory c hn)
    (Observes.refl v _ s) (Or.inr trivial) fun j hj => by
      rw [searchStartAt_k, iterate_succ_zero]
      exact not_or.mpr (hgo j hj)
  rw [searchStartAt_k, iterate_succ_zero] at hK
  have hends := not_exists.mp (not_and.mp hlater hslots) K
  obtain ⟨hchain, hlast⟩ := not_or.mp (not_and.mp hends hgo)
  -- with more rounds the call comes to the same result
  have hmore : (SearchAt.run fuel (fuel + 1) x).run t₁ = .ok r t := by
    rw [← hreach]
    exact findEntryLoop_stable v n rootDirectory (le_refl fuel) (by omega) hrun
  rw [← hK] at hchain hlast
  by_cases hruns : RunEndsIn v s rootDirectory c n x.k
  · obtain ⟨q, u, -, hreads', hfound⟩ := x.run_of_found hdev.1 hslots hn' hfuel hreads hchain hruns
    rw [hfound] at hmore
    cases hmore
    exact Or.inl ⟨⟨_, rfl⟩, hreads.trans hreads'⟩
  · right
    have hnotlast : ¬ LastWindow v s rootDirectory c x.k := fun h => hlast ⟨hruns, h⟩
    have hgrows : GrowsAt v s rootDirectory c x.k := by
      rw [hK]
      refine (Nat.find_spec hex).resolve_left ?_
      rintro (h | h | h)
      · exact hchain (hK ▸ h)
      · exact hruns (hK ▸ h)
      · exact hnotlast (hK ▸ h)
    obtain ⟨hroot, hend⟩ := hgrows
    obtain ⟨st', u, hreads', -, hnext⟩ := x.run_of_not_found hdev.1 hslots hn' hfuel hreads hchain hruns
    have hboth := hreads.trans hreads'
    obtain ⟨u₁, hentry, hreads₁⟩ := readTable_run hdev.1 (positionAt v s rootDirectory c x.k).2 u
    rw [hnext, if_neg (by simp [hroot]), bind_of_ok hentry, hboth.tableEntry_eq, if_pos hend] at hmore
    obtain ⟨new, u₂, halloc, hmore⟩ := bind_eq_ok.mp hmore
    obtain ⟨u₃, hclear, hwrote⟩ := clearCluster_wrote hdev new u₂
    rw [bind_of_ok hclear] at hmore
    have hrest : Quiet u₃ t := by
      refine Keeps.of_ok ?_ hmore
      exact .bind (keepsQuiet_writeTable v _ _) fun _ => keepsQuiet_findEntryLoop v _ _ _ _ _ _ _
    have hfront : Quiet s u₂ :=
      ((hboth.trans hreads₁).quiet).trans ((keepsQuiet_allocateCluster v).of_ok halloc)
    have hmid : Quiet u₂ u₃ := (keepsQuiet_clearCluster v new).of_ok hclear
    exact (hwrote.append hmid hrest).prepend hfront (hmid.trans hrest)

end Search

/-! ## Entering nothing -/

/-- The part of `CreateNewDirFileEntry` that enters a name into a directory. -/
def enterName (v : Volume) (fuel parentCluster : ℕ) (name : List UInt8) (attributes : ℕ)
    (rootDirectory : Bool) : FatM ℤ := do
  let newCluster ← allocateCluster v
  match ← createEntry v fuel parentCluster name attributes rootDirectory newCluster with
  | none => return -1
  | some offset =>
    finishNewEntry v (attributes &&& attrDirectory.toNat != 0) (if rootDirectory then 0 else parentCluster)
      offset

/-- The name is not entered, and nothing is written: there is no cluster to mark, and the name is
empty or the search for its slots gives up. -/
def Refuses (v : Volume) (s : State) (rootDirectory : Bool) (c : ℕ) (name : List UInt8) : Prop :=
  AllocatesNone v s ∧ (name.length % 256 = 0 ∨
    GivesUp v s rootDirectory c (requiredLFNEntries (name.length % 256) + 1))

/-- A creating call is refused without a write: the directory it is for does not exist, or refuses
the name. -/
def CreationRefused (v : Volume) (s : State) (path : List UInt8) : Prop :=
  if strSplit path pathSeperator = [] then Refuses v s true v.rootDirCluster path
  else
    ∃ parent t, Returns (fun fuel => getEntryByPath v fuel (parentPath path)) s parent t ∧
      ∀ entry, parent = some entry → Refuses v s false (getCluster entry.entry) (entryName path)

/-- A refusal depends on what is read. -/
theorem Observes.refuses_iff (h : Observes v P s t) (rootDirectory : Bool) (c : ℕ)
    (name : List UInt8) : Refuses v t rootDirectory c name ↔ Refuses v s rootDirectory c name := by
  simp only [Refuses, h.allocatesNone_iff, h.sameView.givesUp_iff]

/-- A path without a separator is a name in the root. -/
theorem createNewDirFileEntry_of_name (h : strSplit path pathSeperator = []) (v : Volume)
    (fuel attributes : ℕ) :
    createNewDirFileEntry v fuel path attributes =
      enterName v fuel v.rootDirCluster path attributes true := by
  rw [createNewDirFileEntry, if_pos h]
  rfl

/-- Entering a name is quiet. -/
theorem keepsQuiet_enterName (v : Volume) (fuel parentCluster : ℕ) (name : List UInt8) (attributes : ℕ)
    (rootDirectory : Bool) : Keeps Quiet (enterName v fuel parentCluster name attributes rootDirectory) := by
  apply Keeps.bind (keepsQuiet_allocateCluster v)
  intro newCluster
  apply Keeps.bind (keepsQuiet_createEntry v _ _ _ _ _ _)
  intro result
  split
  · exact .pure _
  · exact keepsQuiet_finishNewEntry v _ _ _

/-- More budget does not change what entering a name does. -/
theorem enterName_stable (v : Volume) (parentCluster : ℕ) (name : List UInt8) (attributes : ℕ)
    (rootDirectory : Bool) :
    Stable fun fuel => enterName v fuel parentCluster name attributes rootDirectory :=
  Stable.bind (Stable.const _) fun _ => Stable.bind (createEntry_stable v _ _ _ _ _) fun _ => Stable.const _

/-- A name needs a long-name slot. -/
theorem requiredLFNEntries_pos {n : ℕ} (hn : n ≠ 0) : 0 < requiredLFNEntries n := by
  unfold requiredLFNEntries
  split <;> omega

/-- A name has at most 20 long-name slots. -/
theorem requiredLFNEntries_lt (n : ℕ) : requiredLFNEntries (n % 256) < 21 := by
  unfold requiredLFNEntries
  split <;> omega

/-- The number of slots that are made. -/
theorem length_createLFNEntriesFromName (name : List UInt8) (num : ℕ) (sum : UInt8) :
    (createLFNEntriesFromName name num sum).length = num := by
  simp [createLFNEntriesFromName]

section Entering

variable (hdev : v.AlwaysSucceeds)
include hdev

/-- The first long-name slot is written. -/
theorem writeLongFilenameEntries_wrote {slots : List Bytes} (hslots : slots ≠ [])
    {rootDirectory : Bool} {written : Bool}
    (hrun : (writeLongFilenameEntries v slots target rootDirectory).run s = .ok written t) :
    Wrote s t := by
  cases slots with
  | nil => exact absurd rfl hslots
  | cons slot rest =>
    rw [writeLongFilenameEntries, writeLongLoop, update_run hdev, if_neg (by simp)] at hrun
    refine (wrote_afterUpdate v s _ _).append (alters_afterUpdate v s _ _).trace
      (Keeps.of_ok (R := Quiet) ?_ hrun)
    apply Keeps.ite
    · intro _
      apply Keeps.ite (fun _ => keepsQuiet_writeLongLoop v _ _ _ _ _ _ _)
      intro _
      apply Keeps.ite
      · exact fun _ => .bind (keepsQuiet_readTable v _) fun _ =>
          keepsQuiet_writeLongLoop v _ _ _ _ _ _ _
      · exact fun _ => keepsQuiet_writeLongLoop v _ _ _ _ _ _ _
    · exact fun _ => keepsQuiet_writeLongLoop v _ _ _ _ _ _ _

variable {c : ℕ} {name : List UInt8} {attr : ℕ} {rootDirectory : Bool}

/-- An entry is refused without a write if there are no slots for it. -/
theorem createEntry_silent (attr : ℕ) (h : name.length % 256 = 0 ∨
      GivesUp v s rootDirectory c (requiredLFNEntries (name.length % 256) + 1)) (targetCluster : ℕ) :
    ∃ t, Returns (fun fuel => createEntry v fuel c name attr rootDirectory targetCluster) s none t ∧
      Reads v s t := by
  by_cases hzero : name.length % 256 = 0
  · refine ⟨s, ⟨0, fun fuel _ => ?_⟩, Observes.refl v _ s⟩
    dsimp only
    rw [createEntry_eq, if_pos hzero]
    rfl
  · have hlt := requiredLFNEntries_lt name.length
    obtain ⟨t, ⟨n, hn⟩, hreads⟩ := findEntryStartpoint_of_givesUp hdev (Nat.succ_pos _) (by omega)
      (h.resolve_left hzero)
    refine ⟨t, ⟨n, fun fuel hfuel => ?_⟩, hreads⟩
    dsimp only
    rw [createEntry_eq, if_neg hzero, bind_of_ok (hn fuel hfuel)]
    rfl

/-- Slots that were found are filled. -/
theorem fillSlots_wrote (hzero : name.length % 256 ≠ 0)
    (hrun : (fillSlots v name attr rootDirectory targetCluster target).run s = .ok r t) :
    Wrote s t := by
  rw [fillSlots] at hrun
  split at hrun
  · cases hrun
  · next shortName _ =>
    have hpos := requiredLFNEntries_pos hzero
    obtain ⟨written, t₁, hlong, hrun⟩ := bind_eq_ok.mp hrun
    have hne : createLFNEntriesFromName name (requiredLFNEntries (name.length % 256)) (checksum shortName) ≠
        [] := by
      rw [← List.length_pos_iff, length_createLFNEntriesFromName]
      exact hpos
    have hquiet : Quiet s t₁ := (keepsQuiet_writeLongLoop v _ _ _ _ _ _ _).of_ok hlong
    refine (writeLongFilenameEntries_wrote hdev hne hlong).append hquiet (Q := fun e => ¬ e.OnBuffer) ?_
    refine Keeps.of_ok ?_ hrun
    exact .ite (fun _ => .pure _) fun _ => keepsQuiet_placeEntry v _ _ _ _ _ _

/-- Otherwise the call writes before it returns. -/
theorem createEntry_wrote (h : ¬ (name.length % 256 = 0 ∨
      GivesUp v s rootDirectory c (requiredLFNEntries (name.length % 256) + 1)))
    (hfuel : v.slotsPerSector < fuel)
    (hrun : (createEntry v fuel c name attr rootDirectory targetCluster).run s = .ok r t) :
    Wrote s t := by
  obtain ⟨hzero, hfinds⟩ := not_or.mp h
  have hlt := requiredLFNEntries_lt name.length
  rw [createEntry_eq, if_neg hzero] at hrun
  obtain ⟨result, t₁, hsearch, hrun⟩ := bind_eq_ok.mp hrun
  have hquiet : Quiet s t₁ := (keepsQuiet_findEntryLoop v _ _ _ _ _ _ _).of_ok hsearch
  have hrest : Quiet t₁ t := by
    refine Keeps.of_ok ?_ hrun
    split
    · exact .pure _
    · exact keepsQuiet_fillSlots v _ _ _ _ _
  rcases findEntryStartpoint_of_not_givesUp hdev (Nat.succ_pos _) (by omega) hfinds hfuel hsearch with
    ⟨⟨target, rfl⟩, -⟩ | hwrote
  · exact (fillSlots_wrote hdev hzero hrun).prepend hquiet hrest
  · exact hwrote.append hquiet hrest

/-- A name that is refused is refused silently. -/
theorem enterName_silent (attr : ℕ) (h : Refuses v s rootDirectory c name) :
    ∃ t, Returns (fun fuel => enterName v fuel c name attr rootDirectory) s (-1) t ∧ Silent v s t := by
  obtain ⟨hnone, hslots⟩ := h
  obtain ⟨r, t, halloc, hsilent⟩ := allocateCluster_silent hdev hnone
  obtain ⟨u, hentry, hreads⟩ := createEntry_silent hdev attr
    (hslots.imp_right (hsilent.sameView.givesUp_iff _ _ _).mpr) r
  exact ⟨u, (Returns.of_run halloc).bind (hentry.bind (Returns.of_run rfl)), hsilent.trans hreads.silent⟩

/-- A name that is not refused is written. -/
theorem enterName_wrote (h : ¬ Refuses v s rootDirectory c name) {r : ℤ}
    (hreturns : Returns (fun fuel => enterName v fuel c name attr rootDirectory) s r t) : Wrote s t := by
  obtain ⟨n, hn⟩ := hreturns
  have hfuel : v.slotsPerSector < n + v.slotsPerSector + 1 := by omega
  have hrun := hn (n + v.slotsPerSector + 1) (by omega)
  obtain ⟨new, t₁, halloc, hrun⟩ := bind_eq_ok.mp hrun
  obtain ⟨result, t₂, hentry, hrun⟩ := bind_eq_ok.mp hrun
  have hquiet₁ : Quiet s t₁ := (keepsQuiet_allocateCluster v).of_ok halloc
  have hquiet₂ : Quiet t₁ t₂ := (keepsQuiet_createEntry v _ _ _ _ _ _).of_ok hentry
  have hquiet₃ : Quiet t₂ t := by
    refine Keeps.of_ok ?_ hrun
    split
    · exact .pure _
    · exact keepsQuiet_finishNewEntry v _ _ _
  by_cases hnone : AllocatesNone v s
  · obtain ⟨_, _, halloc', hsilent⟩ := allocateCluster_silent hdev hnone
    rw [halloc] at halloc'
    cases halloc'
    have hslots := not_and.mp h hnone
    rw [← hsilent.sameView.givesUp_iff] at hslots
    exact ((createEntry_wrote hdev hslots hfuel hentry).append hquiet₂ hquiet₃).prepend hquiet₁
      (hquiet₂.trans hquiet₃)
  · obtain ⟨_, _, halloc', hwrote⟩ := allocateCluster_wrote hdev hnone
    rw [halloc] at halloc'
    cases halloc'
    exact hwrote.append hquiet₁ (hquiet₂.trans hquiet₃)

/-- A creating call that is refused returns -1 without a write. -/
theorem createNewDirFileEntry_silent (h : CreationRefused v s path) (attributes : ℕ) :
    ∃ t, Returns (fun fuel => createNewDirFileEntry v fuel path attributes) s (-1) t ∧ Silent v s t := by
  rw [CreationRefused] at h
  split at h
  · next hparts =>
    simp only [createNewDirFileEntry_of_name hparts]
    exact enterName_silent hdev attributes h
  · next hparts =>
    simp only [createNewDirFileEntry_of_components hparts]
    obtain ⟨parent, t, hlookup, hrefuses⟩ := h
    have hemit : Silent v s { s with trace := .path (splitIndex path) :: s.trace } :=
      silent_emit (by simp [Event.IsSilent]) s
    obtain ⟨t₁, hlookup₁⟩ := returns_of_sameView hdev.1 hemit.sameView hlookup
    have hsilent₁ : Silent v s t₁ := by
      obtain ⟨n, hn⟩ := hlookup₁
      exact hemit.trans ((keepsReads_getEntryByPath v n _).of_ok (hn n (le_refl n))).silent
    cases parent with
    | none =>
      exact ⟨t₁, (Returns.of_run (emit_run _ s)).bind (hlookup₁.bind (Returns.of_run rfl)), hsilent₁⟩
    | some entry =>
      obtain ⟨u, hentered, hsilent₂⟩ := enterName_silent hdev attributes
        ((hsilent₁.refuses_iff _ _ _).mpr (hrefuses entry rfl))
      exact ⟨u, (Returns.of_run (emit_run _ s)).bind (hlookup₁.bind hentered), hsilent₁.trans hsilent₂⟩

/-- A creating call for a path with components looks its parent up, and enters the name there. -/
theorem createNewDirFileEntry_components (hparts : strSplit path pathSeperator ≠ [])
    {attributes : ℕ} {r : ℤ}
    (hreturns : Returns (fun fuel => createNewDirFileEntry v fuel path attributes) s r u) :
    ∃ parent t t', Returns (fun fuel => getEntryByPath v fuel (parentPath path)) s parent t ∧ Silent v s t' ∧
      ∀ entry, parent = some entry → Returns (fun fuel =>
        enterName v fuel (getCluster entry.entry) (entryName path) attributes false) t' r u := by
  obtain ⟨n, hn⟩ := hreturns
  have hrun := hn n (le_refl n)
  dsimp only at hrun
  rw [createNewDirFileEntry_of_components hparts, bind_of_ok (emit_run _ s)] at hrun
  obtain ⟨parent, t', hlookup, hrun⟩ := bind_eq_ok.mp hrun
  have hemit : Silent v s { s with trace := .path (splitIndex path) :: s.trace } :=
    silent_emit (by simp [Event.IsSilent]) s
  obtain ⟨t, hlookup'⟩ := returns_of_sameView hdev.1 hemit.sameView.symm
    ((getEntryByPath_stable v _).returns hlookup)
  refine ⟨parent, t, t', hlookup', hemit.trans ((keepsReads_getEntryByPath v _ _).of_ok hlookup).silent, ?_⟩
  rintro entry rfl
  exact (enterName_stable v _ _ _ _).returns hrun

omit hdev in
/-- A call that is not refused has a parent that does not refuse the name. -/
theorem exists_parent_of_not_refused (hparts : strSplit path pathSeperator ≠ [])
    (h : ¬ CreationRefused v s path) {parent : Option FATEntryInfo}
    (hlookup : Returns (fun fuel => getEntryByPath v fuel (parentPath path)) s parent t) :
    ∃ entry, parent = some entry ∧ ¬ Refuses v s false (getCluster entry.entry) (entryName path) := by
  rw [CreationRefused, if_neg hparts] at h
  by_contra hnone
  push Not at hnone
  exact h ⟨parent, t, hlookup, hnone⟩

/-- Every other creating call writes before it returns. -/
theorem createNewDirFileEntry_wrote (h : ¬ CreationRefused v s path) {attributes : ℕ} {r : ℤ}
    (hreturns : Returns (fun fuel => createNewDirFileEntry v fuel path attributes) s r t) :
    Wrote s t := by
  by_cases hparts : strSplit path pathSeperator = []
  · rw [CreationRefused, if_pos hparts] at h
    simp only [createNewDirFileEntry_of_name hparts] at hreturns
    exact enterName_wrote hdev h hreturns
  · obtain ⟨parent, t₁, t₂, hlookup, hsilent, hentered⟩ :=
      createNewDirFileEntry_components hdev hparts hreturns
    obtain ⟨entry, rfl, hnot⟩ := exists_parent_of_not_refused hparts h hlookup
    rw [← hsilent.refuses_iff] at hnot
    have hentered := hentered entry rfl
    have hquiet : Quiet t₂ t := by
      obtain ⟨n, hn⟩ := hentered
      exact (keepsQuiet_enterName v _ _ _ _ _).of_ok (hn n (le_refl n))
    exact (enterName_wrote hdev hnot hentered).prepend hsilent.traces hquiet

/-- Whether a creating call is refused can be told after a silent run as well. -/
theorem Observes.creationRefused_iff (h : Observes v P s t) (path : List UInt8) :
    CreationRefused v t path ↔ CreationRefused v s path := by
  unfold CreationRefused
  simp only [h.refuses_iff]
  split
  · rfl
  · constructor
    · rintro ⟨parent, t', hlookup, hall⟩
      obtain ⟨s', hlookup'⟩ := returns_of_sameView hdev.1 h.sameView.symm hlookup
      exact ⟨parent, s', hlookup', hall⟩
    · rintro ⟨parent, s', hlookup, hall⟩
      obtain ⟨t', hlookup'⟩ := returns_of_sameView hdev.1 h.sameView hlookup
      exact ⟨parent, t', hlookup', hall⟩

/-- A creating call returns -1 without a write exactly if it is refused. -/
theorem createNewDirFileEntry_refused_iff (path : List UInt8) (attributes : ℕ) :
    (∃ u, Returns (fun fuel => createNewDirFileEntry v fuel path attributes) s (-1) u ∧ ¬ Wrote s u) ↔
      CreationRefused v s path := by
  constructor
  · rintro ⟨u, hreturns, hnot⟩
    by_contra hrefused
    exact hnot (createNewDirFileEntry_wrote hdev hrefused hreturns)
  · intro hrefused
    obtain ⟨u, hreturns, hsilent⟩ := createNewDirFileEntry_silent hdev hrefused attributes
    exact ⟨u, hreturns, hsilent.not_wrote⟩

/-- `WriteFile` on a path that names a directory returns -1 without a write exactly if a creating call
for this path is refused. -/
theorem writeFile_refused_iff {entry : FATEntryInfo}
    (hlookup : Returns (fun fuel => getEntryByPath v fuel path) s (some entry) t)
    (hdir : isDirectory entry.entry = true) (buffer : Bytes) {len : ℕ} (hlen : len < 2 ^ 32) :
    (∃ u, Returns (fun fuel => writeFile v fuel path buffer len true) s (-1) u ∧ ¬ Wrote s u) ↔
      CreationRefused v s path := by
  have hexists : Returns (fun fuel => fileExists v fuel path) s false t := by
    refine hlookup.bind (Returns.of_run ?_)
    simp [hdir]
  have hreads : Reads v s t := by
    obtain ⟨n, hn⟩ := hlookup
    exact (keepsReads_getEntryByPath v n path).of_ok (hn n (le_refl n))
  rw [← hreads.creationRefused_iff hdev]
  constructor
  · rintro ⟨u, hreturns, hnot⟩
    by_contra hrefused
    obtain ⟨n, hn⟩ := hreturns
    obtain ⟨m, hm⟩ := hexists
    have hrun := hn (n + m) (by omega)
    dsimp only at hrun
    rw [writeFile, bind_of_ok (hm (n + m) (by omega))] at hrun
    obtain ⟨created, t₁, hcreate, hrun⟩ := bind_eq_ok.mp hrun
    have hwrote : Wrote t t₁ := createNewDirFileEntry_wrote hdev hrefused
      ((createNewDirFileEntry_stable v path 0).returns hcreate)
    have hquiet : Quiet t t₁ := (keepsQuiet_createNewDirFileEntry v _ _ _).of_ok hcreate
    have hrest : Traces (WriteEvent v len 0 (sectorsWritten v len)) t₁ u := by
      refine Keeps.of_ok ?_ hrun
      exact .ite (fun _ => .pure _) fun _ =>
        writeExisting_traces v _ path buffer hlen
    exact hnot ((hwrote.append hquiet hrest).prepend hreads.traces
      ((hquiet.mono fun e => Or.inl).trans hrest))
  · intro hrefused
    obtain ⟨u, hcreate, hsilent⟩ := createNewDirFileEntry_silent hdev hrefused 0
    refine ⟨u, hexists.bind ?_, (hreads.silent.trans hsilent).not_wrote⟩
    exact hcreate.bind (Returns.of_run rfl)

end Entering

/-- A call on an entry of the wrong kind returns -1 without a write exactly if there is nothing left to
allocate and no slot to take: for `WriteFile` on a directory that is so where a creating call for the
same path is refused, and for a creating call below a file where the chain of the file refuses the
name. -/
theorem kinds_respected_iff (v : Volume) (s : State) (hdev : v.AlwaysSucceeds) (path : List UInt8) :
    (∀ entry t, Returns (fun fuel => getEntryByPath v fuel path) s (some entry) t →
      isDirectory entry.entry = true → ∀ buffer len, len < 2 ^ 32 →
        ((∃ u, Returns (fun fuel => writeFile v fuel path buffer len true) s (-1) u ∧ ¬ Wrote s u) ↔
          CreationRefused v s path)) ∧
    (strSplit path pathSeperator ≠ [] → ∀ parent t,
      Returns (fun fuel => getEntryByPath v fuel (parentPath path)) s (some parent) t →
        isDirectory parent.entry = false →
          ((∃ u, Returns (fun fuel => createFile v fuel path) s (-1) u ∧ ¬ Wrote s u) ↔
            Refuses v s false (getCluster parent.entry) (entryName path)) ∧
          ((∃ u, Returns (fun fuel => createDirectory v fuel path) s (-1) u ∧ ¬ Wrote s u) ↔
            Refuses v s false (getCluster parent.entry) (entryName path))) := by
  refine ⟨fun entry t hlookup hdir buffer len hlen => writeFile_refused_iff hdev hlookup hdir buffer hlen,
    fun hparts parent t hlookup _ => ?_⟩
  have hiff : CreationRefused v s path ↔ Refuses v s false (getCluster parent.entry) (entryName path) := by
    rw [CreationRefused, if_neg hparts]
    constructor
    · rintro ⟨parent', t', hlookup', hall⟩
      obtain ⟨rfl, -⟩ := hlookup'.unique hlookup
      exact hall parent rfl
    · rintro hrefuses
      refine ⟨some parent, t, hlookup, ?_⟩
      rintro _ ⟨⟩
      exact hrefuses
  rw [← hiff]
  exact ⟨createNewDirFileEntry_refused_iff hdev path 0, createNewDirFileEntry_refused_iff hdev path _⟩

/-- The path of an entry `B.C` below the file `A.TXT`. -/
def belowSample : List UInt8 := samplePath ++ [0x5C, 0x42, 0x2E, 0x43]

/-- A file is created below the path of a file. -/
theorem slice_createFile :
    ∃ t, Returns (fun fuel => createFile (smallVolume 0) fuel belowSample) sliceState 0 t :=
  ⟨_, (createNewDirFileEntry_stable _ _ _).returns_of_answer (n := 20) (by decide +kernel)⟩

/-- `CreateFile` takes the data of a file for a directory and enters a name there. -/
theorem not_kinds_respected :
    ¬ ∀ (v : Volume) (s : State), v.AlwaysSucceeds → ∀ path : List UInt8,
      (∀ entry t, Returns (fun fuel => getEntryByPath v fuel path) s (some entry) t →
        isDirectory entry.entry = true → ∀ buffer len, len < 2 ^ 32 →
          ∃ u, Returns (fun fuel => writeFile v fuel path buffer len true) s (-1) u ∧ ¬ Wrote s u) ∧
      (strSplit path pathSeperator ≠ [] → ∀ parent t,
        Returns (fun fuel => getEntryByPath v fuel (parentPath path)) s (some parent) t →
          isDirectory parent.entry = false →
            (∃ u, Returns (fun fuel => createFile v fuel path) s (-1) u ∧ ¬ Wrote s u) ∧
            ∃ u, Returns (fun fuel => createDirectory v fuel path) s (-1) u ∧ ¬ Wrote s u) := by
  intro hclaim
  obtain ⟨entry, t, hlookup, hfile, -⟩ := slice_resolved
  have hparent : parentPath belowSample = samplePath := by decide +kernel
  obtain ⟨⟨u, hfailed, -⟩, -⟩ := (hclaim (smallVolume 0) sliceState (smallVolume_alwaysSucceeds 0)
    belowSample).2 (by decide +kernel) entry t (hparent ▸ hlookup) hfile
  obtain ⟨t', hcreated⟩ := slice_createFile
  exact absurd (hfailed.unique hcreated).1 (by decide)

/-- A file `A.TXT` without a cluster, and a directory `D` of 16 entries whose cluster is not marked in
the table. The cursor has come to the end of the table. -/
def exhaustedState : State :=
  { mounted (diskImage [(17, slotBytes sampleName 0x20 0 0 ++
        slotBytes (0x44 :: List.replicate 10 0x20) 0x10 2 0),
      (18, slotBytes (0x45 :: List.replicate 10 0x20) 0x10 3 0 ++ List.replicate 480 0x42)]) with
    startSearchCluster := 4085 }

/-- What three paths of the sample lead to. -/
theorem exhausted_lookup :
    (∃ parent t, Returns (fun fuel => getEntryByPath (smallVolume 0) fuel (parentPath belowSample))
      exhaustedState (some parent) t ∧ isDirectory parent.entry = false ∧ getCluster parent.entry = 0) ∧
    (∃ parent t, Returns (fun fuel => getEntryByPath (smallVolume 0) fuel (parentPath [0x44, 0x5C, 0x45]))
      exhaustedState (some parent) t ∧ getCluster parent.entry = 2) ∧
    ∃ entry t, Returns (fun fuel => getEntryByPath (smallVolume 0) fuel [0x44, 0x5C, 0x45])
      exhaustedState (some entry) t ∧ isDirectory entry.entry = true := by
  have hfile : (resolved (smallVolume 0) exhaustedState 20 (parentPath belowSample)).map
      (fun e => (isDirectory e.entry, getCluster e.entry)) = some (false, 0) := by decide +kernel
  have hparent : (resolved (smallVolume 0) exhaustedState 20 (parentPath [0x44, 0x5C, 0x45])).map
      (fun e => getCluster e.entry) = some 2 := by decide +kernel
  have hdir : (resolved (smallVolume 0) exhaustedState 20 [0x44, 0x5C, 0x45]).map
      (fun e => isDirectory e.entry) = some true := by decide +kernel
  obtain ⟨file, hfile, hkind⟩ := Option.map_eq_some_iff.mp hfile
  obtain ⟨parent, hparent, hcluster⟩ := Option.map_eq_some_iff.mp hparent
  obtain ⟨entry, hentry, hdir⟩ := Option.map_eq_some_iff.mp hdir
  simp only [Prod.mk.injEq] at hkind
  obtain ⟨t₁, h₁⟩ := returns_of_resolved _ hfile
  obtain ⟨t₂, h₂⟩ := returns_of_resolved _ hparent
  obtain ⟨t₃, h₃⟩ := returns_of_resolved _ hentry
  exact ⟨⟨file, t₁, h₁, hkind⟩, ⟨parent, t₂, h₂, hcluster⟩, entry, t₃, h₃, hdir⟩

/-- The sample has no free cluster. -/
theorem exhausted_allocatesNone : AllocatesNone (smallVolume 0) exhaustedState :=
  Or.inr fun _ hk hk' => absurd (lt_of_le_of_lt hk hk') (lt_irrefl _)

/-- No slots are found in the directory of the sample. -/
theorem exhausted_givesUp (n : ℕ) (hn : 0 < n) : GivesUp (smallVolume 0) exhaustedState false 2 n := by
  refine Or.inr ⟨by decide, 1, fun k hk => ?_, Or.inl (by decide +kernel)⟩
  obtain rfl : k = 0 := by omega
  refine ⟨?_, ?_⟩
  · rintro (hchain | ⟨r, hfirst, -, hend⟩ | ⟨hroot, -⟩)
    · exact absurd hchain (by decide +kernel)
    · have hused : ∀ m < 16, ¬ WalkFree (smallVolume 0) exhaustedState false 2 m := by decide +kernel
      have hend : r + n ≤ (0 + 1) * 16 := hend
      exact hused r (by omega) (hfirst.run 0 hn)
    · cases hroot
  · rintro ⟨-, hend⟩
    exact absurd hend (by decide +kernel)

/-- Nothing is left to allocate and no slot to take, below the file and in the directory. -/
theorem kinds_respected_exhausted :
    (∃ u, Returns (fun fuel => writeFile (smallVolume 0) fuel [0x44, 0x5C, 0x45] (fun _ => 0) 1 true)
      exhaustedState (-1) u ∧ ¬ Wrote exhaustedState u) ∧
    ∃ u, Returns (fun fuel => createFile (smallVolume 0) fuel belowSample) exhaustedState (-1) u ∧
      ¬ Wrote exhaustedState u := by
  obtain ⟨⟨file, t₁, hfile, hkind, hzero⟩, ⟨parent, t₂, hparent, hcluster⟩, entry, t₃, hentry, hdir⟩ :=
    exhausted_lookup
  have hdev := smallVolume_alwaysSucceeds 0
  constructor
  · refine ((kinds_respected_iff _ _ hdev _).1 entry t₃ hentry hdir _ _ (by decide)).mpr ?_
    refine ⟨some parent, t₂, hparent, ?_⟩
    rintro _ ⟨⟩
    rw [hcluster]
    exact ⟨exhausted_allocatesNone, Or.inr (exhausted_givesUp _ (Nat.succ_pos _))⟩
  · refine ((kinds_respected_iff _ _ hdev _).2 (by decide +kernel) file t₁ hfile hkind).1.mpr ?_
    rw [hzero]
    exact ⟨exhausted_allocatesNone, Or.inr (Or.inl (Or.inl rfl))⟩

/-! ## What a failed call leaves behind -/

/-- Every entry of the table and every slot of a directory is what it was. -/
def NoTrace (v : Volume) (s u : State) : Prop :=
  (∀ c, IsCluster v c → diskEntry v u c = diskEntry v s c) ∧
    ∀ p : Place, DirRegion v s (p.address v) → p.Aligned v → slotOf v u p = slotOf v s p

/-- The directory is a fixed root, or a chain whose entries the driver reads. -/
def DirChained (v : Volume) (s : State) (rootDirectory : Bool) (c : ℕ) : Prop :=
  fixedRoot v rootDirectory = true ∨ ∃ l, FileChain v s c l ∧ ∀ x ∈ l, x ≤ v.totalClusters

/-- The directory that a creating call for this path works on is one of these. -/
def ParentChained (v : Volume) (s : State) (path : List UInt8) : Prop :=
  if strSplit path pathSeperator = [] then DirChained v s true v.rootDirCluster
  else ∀ parent t, Returns (fun fuel => getEntryByPath v fuel (parentPath path)) s (some parent) t →
    DirChained v s false (getCluster parent.entry)

/-- A disk that is as it was shows no trace. -/
theorem noTrace_of_data (h : u.data = s.data) : NoTrace v s u := by
  refine ⟨fun c _ => congrFun (diskEntry_congr h) c, fun p _ _ => ?_⟩
  rw [slotOf, slotOf, h]

section Failing

variable (hdev : v.AlwaysSucceeds) {c : ℕ} {name : List UInt8} {attr : ℕ} {rootDirectory : Bool}
include hdev

/-- On a disk that accepts every sector the long-name slots are written. -/
theorem writeLongLoop_true {targetSector : ℕ} {slots : List Bytes} {i sector sectorOffset : ℕ}
    {written : Bool}
    (hrun : (writeLongLoop v targetSector rootDirectory slots i sector targetCluster
      sectorOffset).run s = .ok written t) : written = true := by
  induction slots generalizing i sector targetCluster sectorOffset s with
  | nil =>
    cases hrun
    rfl
  | cons slot rest ih =>
    rw [writeLongLoop, update_run hdev, if_neg (by simp)] at hrun
    split at hrun
    · split at hrun
      · exact ih hrun
      · split at hrun
        · obtain ⟨next, t', -, hrun⟩ := bind_eq_ok.mp hrun
          exact ih hrun
        · exact ih hrun
    · exact ih hrun

/-- Slots that were found are filled to the end. -/
theorem fillSlots_ne_none
    (hrun : (fillSlots v name attr rootDirectory targetCluster target).run s = .ok r t) :
    r ≠ none := by
  rw [fillSlots] at hrun
  split at hrun
  · cases hrun
  · obtain ⟨written, t₁, hlong, hrun⟩ := bind_eq_ok.mp hrun
    rw [writeLongLoop_true hdev hlong] at hrun
    obtain ⟨place, t₂, -, hrun⟩ := bind_eq_ok.mp hrun
    obtain ⟨date, t₃, -, hrun⟩ := bind_eq_ok.mp hrun
    obtain ⟨time, t₄, -, hrun⟩ := bind_eq_ok.mp hrun
    obtain ⟨written, t₅, hentry, hrun⟩ := bind_eq_ok.mp hrun
    rw [writeDirectoryEntry, update_run hdev] at hentry
    cases hentry
    cases hrun
    simp

/-- An entry is refused if its name is empty, or if the search for its slots finds none. -/
theorem createEntry_none
    (hrun : (createEntry v fuel c name attr rootDirectory targetCluster).run s = .ok none t) :
    name.length % 256 = 0 ∧ t = s ∨ name.length % 256 ≠ 0 ∧
      (findEntryStartpoint v fuel c (requiredLFNEntries (name.length % 256) + 1) rootDirectory).run s =
        .ok none t := by
  rw [createEntry_eq] at hrun
  split at hrun
  · next hzero =>
    cases hrun
    exact Or.inl ⟨hzero, rfl⟩
  · next hzero =>
    refine Or.inr ⟨hzero, ?_⟩
    obtain ⟨result, t₁, hsearch, hrun⟩ := bind_eq_ok.mp hrun
    cases result with
    | none =>
      cases hrun
      exact hsearch
    | some target => exact absurd rfl (fillSlots_ne_none hdev hrun)

/-- A new entry is finished without a failure. -/
theorem finishNewEntry_zero {isDir : Bool} {entryRootCluster offset : ℕ} {r : ℤ}
    (hrun : (finishNewEntry v isDir entryRootCluster offset).run s = .ok r t) : r = 0 := by
  rw [finishNewEntry, bind_of_ok (getReadBuffer_run _)] at hrun
  obtain ⟨_, t₁, -, hrun⟩ := bind_eq_ok.mp hrun
  cases isDir with
  | false =>
    cases hrun
    rfl
  | true =>
    simp only [if_true] at hrun
    rw [update_run hdev] at hrun
    cases hrun
    rfl

/-- A call that fails after its allocation fails in `CreateEntry`. -/
theorem enterName_failed (hrun : (enterName v fuel c name attr rootDirectory).run s = .ok (-1) u) :
    ∃ new t, (allocateCluster v).run s = .ok new t ∧
      (createEntry v fuel c name attr rootDirectory new).run t = .ok none u := by
  obtain ⟨new, t, halloc, hrun⟩ := bind_eq_ok.mp hrun
  obtain ⟨result, t₁, hentry, hrun⟩ := bind_eq_ok.mp hrun
  refine ⟨new, t, halloc, ?_⟩
  cases result with
  | none =>
    cases hrun
    exact hentry
  | some offset => exact absurd (finishNewEntry_zero hdev hrun) (by decide)

variable (hwf : v.WellFormed) (hwhole : WholeEntries v) (hslots : v.slotsPerSector < 256)
include hwf hwhole hslots

/-- A search that finds nothing has only read, or has broken the end of the chain. -/
theorem findEntryStartpoint_failed {n : ℕ} (hn : 0 < n) (hn' : n < 2 ^ 32)
    (hdir : DirChained v s rootDirectory c) (hstart : 2 ≤ s.startSearchCluster)
    (hreturns : Returns (fun fuel => findEntryStartpoint v fuel c n rootDirectory) s none t) :
    Reads v s t ∨ fixedRoot v rootDirectory ≠ true ∧ ∃ l, FileChain v s c l ∧
      ∃ last ∈ l, v.clusterEnd ≤ links v s last ∧ links v t last < v.clusterEnd := by
  have hstable := findEntryStartpoint_stable v c n rootDirectory
  by_cases hroot : fixedRoot v rootDirectory = true
  · obtain ⟨m, hm⟩ := hreturns
    exact Or.inl ((readsOnly_findEntryLoop hroot _ _ _ _ _ _).keeps.of_ok (hm m (le_refl m)))
  · obtain ⟨l, hl, hle⟩ := hdir.resolve_left hroot
    rcases List.eq_nil_or_concat l with rfl | ⟨xs, last, rfl⟩
    · have hstop : ChainStops v c := by
        rcases hl with ⟨hzero, -⟩ | ⟨hend, -⟩
        · exact Or.inl hzero
        · exact Or.inr hend
      obtain ⟨t', hreturns', hreads⟩ := findEntryStartpoint_of_givesUp hdev hn hn'
        (show GivesUp v s rootDirectory c n from Or.inl hstop)
      obtain ⟨-, rfl⟩ := hreturns.unique hreturns'
      exact Or.inl hreads
    · rw [List.concat_eq_append] at hl hle
      obtain ⟨result, t', hrun, hcases⟩ := findEntryStartpoint_chain hdev hwf hwhole hslots
        (by simpa using hroot) hn hn' hl hstart (Nat.lt_succ_self _)
      obtain ⟨rfl, rfl⟩ := hreturns.unique (hstable.returns hrun)
      rcases hcases with ⟨_, -, -, hhigh, -⟩ | ⟨-, hbreaks⟩
      · have := hle _ (hhigh rfl)
        omega
      · refine Or.inr ⟨hroot, _, hl, last, by simp, ?_, hbreaks.last_lt⟩
        exact (hl.walks_links (by simp)).stop_next_last

/-- A call that fails without being refused changes an entry of the table. -/
theorem enterName_trace (hstart : 2 ≤ s.startSearchCluster) (hdir : DirChained v s rootDirectory c)
    (h : ¬ Refuses v s rootDirectory c name)
    (hreturns : Returns (fun fuel => enterName v fuel c name attr rootDirectory) s (-1) u) :
    ∃ k, IsCluster v k ∧ links v u k ≠ links v s k := by
  have hlt := hwf.clusters_lt
  obtain ⟨m, hm⟩ := hreturns
  let fuel := m + v.slotsPerSector + 1
  obtain ⟨new, t, halloc, hentry⟩ := enterName_failed hdev (hm fuel (by omega))
  obtain ⟨_, _, halloc', -, -, hnew⟩ := allocateCluster_run hwf hwhole hdev hstart
  rw [halloc] at halloc'
  cases halloc'
  by_cases hzero : new = 0
  · -- there was nothing to allocate, so the search has written
    subst hzero
    obtain ⟨hview, hcursor⟩ := allocateCluster_failed (by omega) halloc
    have hlinks : links v t = links v s := hwf.links_eq fun a _ => by rw [hview.data]
    have hnone : AllocatesNone v s := by
      by_contra hsome
      obtain ⟨hlow, hsome⟩ := not_or.mp hsome
      push Not at hsome
      obtain ⟨_, _, halloc', hiff⟩ := allocateCluster_zero_iff hdev s
      rw [halloc] at halloc'
      cases halloc'
      exact hiff.mpr ⟨by omega, hsome⟩ rfl
    have hfinds := not_and.mp h hnone
    rw [← hview.givesUp_iff] at hfinds
    obtain ⟨hname, hgoes⟩ := not_or.mp hfinds
    have hbound := requiredLFNEntries_lt name.length
    obtain ⟨hname', -⟩ | ⟨-, hsearch⟩ := createEntry_none hdev hentry
    · exact absurd hname' hname
    have hdir' : DirChained v t rootDirectory c := hdir.imp_right fun ⟨l, hl, hle⟩ =>
      ⟨l, hl.congr fun x _ => by rw [hlinks], hle⟩
    rcases findEntryStartpoint_failed hdev hwf hwhole hslots (Nat.succ_pos _) (by omega) hdir' (by omega)
        ((findEntryStartpoint_stable v _ _ _).returns hsearch) with hreads | ⟨-, l, hl, last, hmem, hend, hbroken⟩
    · rcases findEntryStartpoint_of_not_givesUp hdev (Nat.succ_pos _) (by omega) hgoes
          (show v.slotsPerSector < fuel by omega) hsearch with ⟨⟨_, hsome⟩, -⟩ | hwrote
      · cases hsome
      · exact absurd hwrote hreads.silent.not_wrote
    · exact ⟨last, hl.isCluster last hmem, by rw [hlinks] at hend; omega⟩
  · -- the entry of the new cluster is marked, and stays so unless the chain breaks
    obtain ⟨hlow, hhigh, hfree, hcursor, hlinks⟩ := hnew hzero
    have hmarked (hkept : links v u = links v t) : ∃ k, IsCluster v k ∧ links v u k ≠ links v s k := by
      refine ⟨new, ⟨hlow, by omega⟩, ?_⟩
      rw [hkept, hlinks, Function.update_self]
      omega
    obtain ⟨-, rfl⟩ | ⟨hname, hsearch⟩ := createEntry_none hdev hentry
    · exact hmarked rfl
    have hbound := requiredLFNEntries_lt name.length
    have hfresh {l : List ℕ} (hl : FileChain v s c l) : new ∉ l := fun hin =>
      hl.links_ne_zero hwf hin hfree
    have hkept {l : List ℕ} (hl : FileChain v s c l) : FileChain v t c l :=
      hl.congr fun x hx => by
        rw [hlinks, Function.update_of_ne]
        rintro rfl
        exact hfresh hl hx
    have hdir' : DirChained v t rootDirectory c :=
      hdir.imp_right fun ⟨l, hl, hle⟩ => ⟨l, hkept hl, hle⟩
    rcases findEntryStartpoint_failed hdev hwf hwhole hslots (Nat.succ_pos _) (by omega) hdir' (by omega)
        ((findEntryStartpoint_stable v _ _ _).returns hsearch) with hreads | ⟨hroot, l, hl, last, hmem, hend, hbroken⟩
    · exact hmarked (hwf.links_eq fun a _ => by rw [hreads.data])
    · refine ⟨last, hl.isCluster last hmem, ?_⟩
      have hne : last ≠ new := by
        rintro rfl
        obtain ⟨l', hl', -⟩ := hdir.resolve_left hroot
        exact hfresh hl' (hl.unique (hkept hl') ▸ hmem)
      rw [hlinks, Function.update_of_ne hne] at hend
      omega

end Failing

/-- A creating call that returns -1 leaves no trace if it was refused; on a volume whose entries the
driver reads whole, that is the only way to leave none. -/
theorem noTrace_iff_refused (v : Volume) (s : State) (hdev : v.AlwaysSucceeds) (path : List UInt8)
    (attributes : ℕ) (u : State)
    (hfailed : Returns (fun fuel => createNewDirFileEntry v fuel path attributes) s (-1) u) :
    (CreationRefused v s path → NoTrace v s u) ∧
      (v.WellFormed → WholeEntries v → v.slotsPerSector < 256 → 2 ≤ s.startSearchCluster →
        ParentChained v s path → (NoTrace v s u ↔ CreationRefused v s path)) := by
  have hsufficient (hrefused : CreationRefused v s path) : NoTrace v s u := by
    obtain ⟨t, hreturns, hsilent⟩ := createNewDirFileEntry_silent hdev hrefused attributes
    obtain ⟨-, rfl⟩ := hfailed.unique hreturns
    exact noTrace_of_data hsilent.data
  refine ⟨hsufficient, fun hwf hwhole hslots hstart hparent => ⟨fun hnone => ?_, hsufficient⟩⟩
  by_contra hnot
  obtain ⟨k, hk, hne⟩ : ∃ k, IsCluster v k ∧ links v u k ≠ links v s k := by
    by_cases hparts : strSplit path pathSeperator = []
    · rw [CreationRefused, if_pos hparts] at hnot
      rw [ParentChained, if_pos hparts] at hparent
      simp only [createNewDirFileEntry_of_name hparts] at hfailed
      exact enterName_trace hdev hwf hwhole hslots hstart hparent hnot hfailed
    · rw [ParentChained, if_neg hparts] at hparent
      obtain ⟨parent, t₁, t, hlookup, hsilent, hentered⟩ :=
        createNewDirFileEntry_components hdev hparts hfailed
      obtain ⟨entry, rfl, hnot⟩ := exists_parent_of_not_refused hparts hnot hlookup
      have hlinks : links v t = links v s := hwf.links_eq fun a _ => by rw [hsilent.data]
      have hdir : DirChained v t false (getCluster entry.entry) :=
        (hparent entry t₁ hlookup).imp_right fun ⟨l, hl, hle⟩ =>
          ⟨l, hl.congr fun x _ => by rw [hlinks], hle⟩
      rw [← hsilent.refuses_iff] at hnot
      rw [← hlinks]
      exact enterName_trace hdev hwf hwhole hslots (by rw [hsilent.start]; exact hstart) hdir hnot
        (hentered entry rfl)
  rw [links_of_le u hk.2, links_of_le s hk.2] at hne
  exact hne (hnone.1 k hk)

/-- A floppy disk whose root directory is full. -/
def fullRootImage : ℕ → Bytes := fun a i =>
  if 19 ≤ a ∧ a < 33 then 0x41 else diskImage [(0, floppyBoot)] a i

/-- On the sample with a full root a call that fails changes an entry of the table. -/
theorem fullRoot_mounts : ∃ v t u,
    (fatInitialize steadyDevice 0 (fun _ => 0) fun _ => 0).run (mounted fullRootImage) = .ok (some v) t ∧
      v.AlwaysSucceeds ∧ Returns (fun fuel => createFile v fuel [0x41, 0x2E, 0x42]) t (-1) u ∧
      IsCluster v 2 ∧ diskEntry v u 2 ≠ diskEntry v t 2 :=
  ⟨_, _, _, rfl, ⟨fun _ _ => rfl, fun _ _ => rfl⟩,
    (createNewDirFileEntry_stable _ _ _).returns_of_answer (n := 20) (by decide +kernel),
    ⟨by decide, by decide +kernel⟩, by decide +kernel⟩

/-- The cluster that was allocated for the file stays marked when the root directory has no slot for
it. -/
theorem not_noTrace_of_failed :
    ¬ ∀ (d : Device) (start_lba : UInt32) (stack heap : Bytes) (s₀ s : State) (v : Volume),
      (fatInitialize d start_lba stack heap).run s₀ = .ok (some v) s → v.AlwaysSucceeds →
      ∀ path : List UInt8, (∀ name ∈ path.splitOn pathSeperator, 0x2E ∈ name) → ∀ u,
        (Returns (fun fuel => createFile v fuel path) s (-1) u ∨
          Returns (fun fuel => createDirectory v fuel path) s (-1) u) → NoTrace v s u := by
  intro hclaim
  obtain ⟨v, t, u, hmount, hdev, hfailed, hcluster, hchanged⟩ := fullRoot_mounts
  exact hchanged ((hclaim _ _ _ _ _ t v hmount hdev [0x41, 0x2E, 0x42] (by decide) u
    (Or.inl hfailed)).1 2 hcluster)

/-- A file without clusters has no chain to enter a name in. -/
theorem noTrace_exhausted : ∃ u,
    Returns (fun fuel => createFile (smallVolume 0) fuel belowSample) exhaustedState (-1) u ∧
      NoTrace (smallVolume 0) exhaustedState u := by
  have hdev := smallVolume_alwaysSucceeds 0
  obtain ⟨⟨file, t, hfile, -, hzero⟩, -⟩ := exhausted_lookup
  have hrefused : CreationRefused (smallVolume 0) exhaustedState belowSample := by
    refine ⟨some file, t, hfile, ?_⟩
    rintro _ ⟨⟩
    rw [hzero]
    exact ⟨exhausted_allocatesNone, Or.inr (Or.inl (Or.inl rfl))⟩
  have hparent : ParentChained (smallVolume 0) exhaustedState belowSample := by
    intro parent t' hparent
    obtain ⟨heq, -⟩ := hparent.unique hfile
    cases heq
    exact Or.inr ⟨[], Or.inl ⟨hzero, rfl⟩, by simp⟩
  obtain ⟨u, hfailed, -⟩ := createNewDirFileEntry_silent hdev hrefused 0
  exact ⟨u, hfailed, ((noTrace_iff_refused _ _ hdev _ _ u hfailed).2 (smallVolume_wellFormed 0)
    (wholeEntries_of_type (by decide)) (by decide) (by decide) hparent).mpr hrefused⟩

end Vsos.Fat
