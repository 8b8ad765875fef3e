import Vsos.Fat.SlotSearch
import Vsos.Fat.TableMap

/-!
# Which walks end

The loops over a chain of clusters follow the links of the table until one of them ends the chain.
The links come from the disk, and nothing counts them: a chain that leads back into itself keeps
`ReadFile` going for ever. A directory is also left at its end mark, and the search for free slots
at the first run that is long enough; the positions that these loops come to are iterates of one
step, and a loop returns exactly if it stops at one of them.
-/

namespace Vsos.Fat

open Vsos.Lib

variable {v : Volume} {s t u : State}

/-! ## Reading a file -/

section File

variable (hread : ∀ h a, v.readStatus h a = 0)
include hread

/-- The sectors of a cluster are read. -/
theorem readSectors_returns (len sector n i : ℕ) (st : Copy) (s : State) :
    ∃ st' t, (readSectors v len sector n i st).run s = .ok (true, st') t ∧ SameView v s t := by
  induction n generalizing i st s with
  | zero => exact ⟨st, s, rfl, SameView.refl v s⟩
  | succ n ih =>
    have hreads := reads_afterRead v s (lba v sector i)
    obtain ⟨st', t, hrun, hview⟩ := ih (i + 1) (copySector v len st (blockAt v s (lba v sector i)))
      { s.afterRead v (lba v sector i) with
        trace := .store st.bufferPointer (copyCount v len st.bytesRead) ::
          (s.afterRead v (lba v sector i)).trace }
    refine ⟨st', t, ?_, hview.data.trans hreads.data, fun k hk => ?_⟩
    · rw [readSectors, bind_of_ok (readSector_run hread _ s)]
      exact hrun
    · exact (hview.behind k hk).trans (hreads.behind k hk)

/-- The loop of `ReadFile` is driven by the links. -/
theorem driven_readClusters (len : ℕ) (s : State) :
    Driven (fun fuel (x : ℕ × Copy) => readClusters v len fuel x.1 x.2) Prod.fst (tableEntry v s)
      (ChainStops v) True (SameView v s) where
  zero := by
    intro x s b t h
    cases h
  goes := by
    rintro ⟨cluster, st⟩ t hview hgo -
    obtain ⟨st', t₁, hsectors, hview₁⟩ :=
      readSectors_returns hread len (clusterToSector v cluster) v.sectorsPerCluster 0 st t
    obtain ⟨t₂, hnext, hreads⟩ := readTable_run hread cluster t₁
    have hview₁ := hview.trans hview₁
    refine ⟨(tableEntry v t₁ cluster, st'), t₂, hview₁.trans hreads.sameView,
      hview₁.tableEntry_eq cluster, fun n => ?_⟩
    rw [readClusters, if_neg hgo, bind_of_ok hsectors]
    rw [bind_of_ok hnext]
  stuck := fun hdead => absurd trivial hdead

/-- The loop of `ReadFile` ends exactly if the links lead to the end of the chain. -/
theorem readClusters_returns_iff (len c : ℕ) (st : Copy) :
    (∃ r t, Returns (fun n => readClusters v len n c st) s r t) ↔
      ∃ k, ChainStops v ((tableEntry v s)^[k] c) := by
  have hdriven := (driven_readClusters hread len s).exists_ok_iff (x := (c, st)) (SameView.refl v s)
    fun x t _ hstop => ⟨1, (0, x.2.buffer), t, by rw [readClusters, if_pos hstop]; rfl⟩
  constructor
  · rintro ⟨r, t, n, hn⟩
    obtain ⟨k, -, hk⟩ := hdriven.mp ⟨n, r, t, hn n (le_refl n)⟩
    exact ⟨k, hk⟩
  · rintro ⟨k, hk⟩
    obtain ⟨n, r, t, hrun⟩ := hdriven.mpr ⟨k, Or.inr trivial, hk⟩
    exact ⟨r, t, (readClusters_stable v len c st).returns hrun⟩

end File

/-! ## Scanning a directory -/

/-- An end mark in the `n` sectors from number `i` on, where the scan sees it: the counter of the
slots has eight bits, so that a sector of 256 slots or more is never left. -/
def EndMarkIn (v : Volume) (s : State) (sector i n : ℕ) : Prop :=
  ∃ k, i ≤ k ∧ k < i + n ∧ (k = i ∨ v.slotsPerSector < 256) ∧
    ∃ j < v.slotsPerSector, j < 256 ∧ blockAt v s (lba v sector k) (32 * j) = entryEnd

/-- Where the scan of a directory goes on: a sector number and a cluster. -/
def nextPosition (v : Volume) (s : State) (rootDirectory : Bool) (position : ℕ × ℕ) : ℕ × ℕ :=
  let start := scanStart v rootDirectory position.1 position.2
  if fixedRoot v rootDirectory then (wrap32 (start + 1), position.2)
  else (start, tableEntry v s position.2)

/-- The scan of a directory stops at the end of the chain and at an end mark. -/
def ScanStops (v : Volume) (s : State) (rootDirectory : Bool) (position : ℕ × ℕ) : Prop :=
  ChainStops v position.2 ∨
    EndMarkIn v s (scanStart v rootDirectory position.1 position.2) 0 v.sectorsPerCluster

/-- The scan stops at the end mark. -/
theorem scanSlot_isRight_iff (entry : Bytes) (sector offset : ℕ) (sc : Scan) :
    (scanSlot entry sector offset sc).isRight = true ↔ entry 0 = entryEnd := by
  by_cases hend : entry 0 = entryEnd
  · simp [scanSlot_of_end hend, hend]
  · by_cases hlisted : Listed entry
    · simp [scanSlot_of_listed hend hlisted, hend]
    · simp [scanSlot_of_not_listed hend hlisted, hend]

/-- Reads do not move the end mark. -/
theorem EndMarkIn.congr (h : SameView v s t) (sector i n : ℕ) :
    EndMarkIn v t sector i n ↔ EndMarkIn v s sector i n := by
  simp only [EndMarkIn, h.blockAt_eq]

section Scan

variable (hread : ∀ h a, v.readStatus h a = 0) {budget : ℕ} (hbudget : v.slotsPerSector < budget)
include hread hbudget

/-- The scan of some sectors: it leaves at an end mark, passes sectors without one, or stays in a
sector with too many slots. -/
theorem scanSectors_cases (hwide : 256 ≤ budget) (sector n i : ℕ) (sc : Scan) (s : State) :
    (EndMarkIn v s sector i n → ∃ sc' t, (scanSectors v budget sector n i sc).run s = .ok (.inr sc') t) ∧
    (¬ EndMarkIn v s sector i n → v.slotsPerSector < 256 →
      ∃ sc' t, (scanSectors v budget sector n i sc).run s = .ok (.inl sc') t ∧ SameView v s t) ∧
    (¬ EndMarkIn v s sector i n → 0 < n → 256 ≤ v.slotsPerSector →
      ∀ r t, (scanSectors v budget sector n i sc).run s ≠ .ok r t) := by
  induction n generalizing i sc s with
  | zero =>
    refine ⟨?_, fun _ _ => ⟨sc, s, rfl, SameView.refl v s⟩, fun _ h => absurd h (lt_irrefl 0)⟩
    rintro ⟨k, hk, hk', -⟩
    omega
  | succ n ih =>
    let block := blockAt v s (lba v sector i)
    have hexits (j : ℕ) (sc : Scan) : (scanSlot (slotAt block (32 * j)) (wrap32 (sector + i)) (32 * j)
        sc).isRight = true ↔ block (32 * j) = entryEnd :=
      (scanSlot_isRight_iff _ _ _ sc).trans (by simp [slotAt])
    have hview := (reads_afterRead v s (lba v sector i)).sameView
    have hstep : (scanSectors v budget sector (n + 1) i sc).run s =
        ((loop8 (v.bytesPerSector / 32)
            (fun j => scanSlot (slotAt block (32 * j)) (wrap32 (sector + i)) (32 * j)) budget 0 sc).elim
          (throw Halt.diverged : FatM (Scan ⊕ Scan))
          (Sum.elim (scanSectors v budget sector n (i + 1)) fun sc' => pure (.inr sc'))).run
            (s.afterRead v (lba v sector i)) := by
      rw [scanSectors, bind_of_ok (readSector_run hread _ s), if_neg (by simp),
        bind_of_ok (show getReadBuffer.run _ = .ok block _ from rfl)]
      dsimp only
      rcases loop8 .. with _ | _ | _ <;> rfl
    by_cases hhere : ∃ j < v.slotsPerSector, j < 256 ∧ block (32 * j) = entryEnd
    · obtain ⟨j, hj, hj', hmark⟩ := hhere
      have hmarked : EndMarkIn v s sector i (n + 1) :=
        ⟨i, le_refl i, by omega, Or.inl rfl, j, hj, hj', hmark⟩
      obtain ⟨sc', hloop⟩ := loop8_of_exit hexits (show j < v.bytesPerSector / 32 from hj) hj' hmark
        (Nat.zero_le j) (show j < 0 + budget by omega) sc
      refine ⟨fun _ => ⟨sc', s.afterRead v (lba v sector i), ?_⟩, fun h => absurd hmarked h,
        fun h => absurd hmarked h⟩
      rw [hstep, hloop]
      rfl
    · have hstay : ∀ j < v.bytesPerSector / 32, j < 256 → ¬ block (32 * j) = entryEnd :=
        fun j hj hj' hmark => hhere ⟨j, hj, hj', hmark⟩
      obtain ⟨hpass, hstuck⟩ := loop8_of_not_exit hexits hstay hbudget sc
      by_cases hsmall : v.slotsPerSector < 256
      · obtain ⟨sc', hloop⟩ := hpass hsmall
        have hrest : EndMarkIn v s sector i (n + 1) ↔
            EndMarkIn v (s.afterRead v (lba v sector i)) sector (i + 1) n := by
          rw [EndMarkIn.congr hview]
          constructor
          · rintro ⟨k, hk, hk', -, hmark⟩
            have hne : k ≠ i := by
              rintro rfl
              exact hhere hmark
            exact ⟨k, by omega, by omega, Or.inr hsmall, hmark⟩
          · rintro ⟨k, hk, hk', -, hmark⟩
            exact ⟨k, by omega, by omega, Or.inr hsmall, hmark⟩
        obtain ⟨hfound, hpassed, -⟩ := ih (i + 1) sc' (s.afterRead v (lba v sector i))
        rw [hstep, hloop, hrest]
        refine ⟨hfound, fun h h' => ?_, fun _ _ h => absurd h (by omega)⟩
        obtain ⟨sc'', t, hrun, hview'⟩ := hpassed h h'
        exact ⟨sc'', t, hrun, hview.trans hview'⟩
      · have hloop := hstuck (show 256 ≤ v.bytesPerSector / 32 from Nat.not_lt.mp hsmall)
        rw [hstep, hloop]
        refine ⟨?_, fun _ h => absurd h hsmall, fun _ _ _ r t h => by cases h⟩
        rintro ⟨k, hk, hk', hcase, hmark⟩
        rcases hcase with rfl | hcase
        · exact absurd hmark hhere
        · exact absurd hcase hsmall

/-- The scan of a directory is driven by its positions. -/
theorem driven_getDirectoryLoop (hwide : 256 ≤ budget) (rootDirectory : Bool) (s : State) :
    Driven (fun fuel (x : (ℕ × ℕ) × Scan) =>
        getDirectoryLoop v rootDirectory budget fuel x.1.1 x.1.2 x.2)
      Prod.fst (nextPosition v s rootDirectory) (ScanStops v s rootDirectory) (v.slotsPerSector < 256)
      (SameView v s) where
  zero := by
    intro x s b t h
    cases h
  goes := by
    rintro ⟨⟨sector, cluster⟩, sc⟩ t hview hgo halive
    obtain ⟨hchain, hmark⟩ := not_or.mp hgo
    rw [← EndMarkIn.congr hview] at hmark
    obtain ⟨sc', t₁, hscan, hview₁⟩ :=
      (scanSectors_cases hread hbudget hwide _ _ _ sc t).2.1 hmark halive
    have hview₁ := hview.trans hview₁
    by_cases hroot : fixedRoot v rootDirectory = true
    · refine ⟨((wrap32 (scanStart v rootDirectory sector cluster + 1), cluster), sc'), t₁, hview₁, ?_,
        fun n => ?_⟩
      · simp [nextPosition, hroot]
      · rw [getDirectoryLoop, if_neg hchain, bind_of_ok hscan]
        simp only [hroot, if_true]
    · obtain ⟨t₂, hnext, hreads⟩ := readTable_run hread cluster t₁
      refine ⟨((scanStart v rootDirectory sector cluster, tableEntry v t₁ cluster), sc'), t₂,
        hview₁.trans hreads.sameView, ?_, fun n => ?_⟩
      · simp [nextPosition, hroot, hview₁.tableEntry_eq]
      · rw [getDirectoryLoop, if_neg hchain, bind_of_ok hscan]
        simp only [hroot, Bool.false_eq_true, if_false]
        rw [bind_of_ok hnext]
  stuck := by
    rintro hdead n ⟨⟨sector, cluster⟩, sc⟩ t r u hview hgo hrun
    obtain ⟨hchain, hmark⟩ := not_or.mp hgo
    rw [← EndMarkIn.congr hview] at hmark
    rw [getDirectoryLoop, if_neg hchain] at hrun
    obtain ⟨q, t', hscan, -⟩ := bind_eq_ok.mp hrun
    exact (scanSectors_cases hread hbudget hwide _ _ _ sc t).2.2 hmark v.sectorsPerCluster_pos
      (Nat.not_lt.mp hdead) q t' hscan

/-- The scan returns where it stops. -/
theorem getDirectoryLoop_of_stops (hwide : 256 ≤ budget) {rootDirectory : Bool} {x : (ℕ × ℕ) × Scan}
    (hview : SameView v s t) (hstop : ScanStops v s rootDirectory x.1) :
    ∃ n r u, (getDirectoryLoop v rootDirectory budget n x.1.1 x.1.2 x.2).run t = .ok r u := by
  obtain ⟨⟨sector, cluster⟩, sc⟩ := x
  refine ⟨1, ?_⟩
  rw [getDirectoryLoop]
  by_cases hchain : ChainStops v cluster
  · rw [if_pos hchain]
    exact ⟨_, _, rfl⟩
  · have hmark := (EndMarkIn.congr hview _ _ _).mpr (hstop.resolve_left hchain)
    obtain ⟨sc', t', hrun⟩ := (scanSectors_cases hread hbudget hwide _ _ _ sc t).1 hmark
    rw [if_neg hchain, bind_of_ok hrun]
    exact ⟨_, _, rfl⟩

omit hbudget in
/-- `GetDirectoryEntries` ends exactly if it comes to the end of the chain or to an end mark. -/
theorem getDirectoryEntries_returns_iff (c : ℕ) (rootDirectory : Bool) :
    (∃ r t, Returns (fun n => getDirectoryEntries v n c rootDirectory) s r t) ↔
      ∃ k, (k = 0 ∨ v.slotsPerSector < 256) ∧
        ScanStops v s rootDirectory ((nextPosition v s rootDirectory)^[k] (0, c)) := by
  constructor
  · rintro ⟨r, t, n, hn⟩
    have hrun := hn (n + v.slotsPerSector + 256) (by omega)
    exact (driven_getDirectoryLoop hread (by omega) (by omega) rootDirectory s).exists_stop
      (x := ((0, c), ⟨[], []⟩)) (SameView.refl v s) hrun
  · intro h
    have hbudget : v.slotsPerSector < v.slotsPerSector + 256 := by omega
    have hwide : 256 ≤ v.slotsPerSector + 256 := by omega
    obtain ⟨n, r, t, hrun⟩ := ((driven_getDirectoryLoop hread hbudget hwide rootDirectory s).exists_ok_iff
      (x := ((0, c), ⟨[], []⟩)) (SameView.refl v s)
      fun x t hview => getDirectoryLoop_of_stops hread hbudget hwide hview).mpr h
    have hstable : Stable fun n => getDirectoryEntries v n c rootDirectory :=
      fun n m s a t hnm h => getDirectoryLoop_stable v rootDirectory hnm hnm h
    refine ⟨r, t, hstable.returns (n := n + (v.slotsPerSector + 256)) ?_⟩
    exact getDirectoryLoop_stable v rootDirectory (by omega) (by omega) hrun

end Scan

/-! ## Searching for free slots -/

/-- The position of a walk over a directory after `k` windows. -/
def positionAt (v : Volume) (s : State) (rootDirectory : Bool) (c k : ℕ) : ℕ × ℕ :=
  (nextPosition v s rootDirectory)^[k] (0, c)

/-- The first sector of window number `k`. -/
def windowStart (v : Volume) (s : State) (rootDirectory : Bool) (c k : ℕ) : ℕ :=
  scanStart v rootDirectory (positionAt v s rootDirectory c k).1 (positionAt v s rootDirectory c k).2

/-- Slot number `m` of the windows is free. -/
def WalkFree (v : Volume) (s : State) (rootDirectory : Bool) (c m : ℕ) : Prop :=
  slotFree (windowSlot v s (windowStart v s rootDirectory c (m / v.slotsPerCluster))
    (m % v.slotsPerCluster)) = true

instance (v : Volume) (s : State) (rootDirectory : Bool) (c m : ℕ) :
    Decidable (WalkFree v s rootDirectory c m) :=
  inferInstanceAs (Decidable (_ = _))

/-- The place of slot number `m`, as the search reports it. -/
def walkTarget (v : Volume) (s : State) (rootDirectory : Bool) (c m : ℕ) : Target :=
  slotTarget v (positionAt v s rootDirectory c (m / v.slotsPerCluster)).2 (m % v.slotsPerCluster)

/-- The first run of `n` free slots ends in window number `k`. -/
def RunEndsIn (v : Volume) (s : State) (rootDirectory : Bool) (c n k : ℕ) : Prop :=
  ∃ r, FirstRun (WalkFree v s rootDirectory c) n r ∧ k * v.slotsPerCluster < r + n ∧
    r + n ≤ (k + 1) * v.slotsPerCluster

/-- Window number `k` is the last one of a fixed root directory. -/
def LastWindow (v : Volume) (s : State) (rootDirectory : Bool) (c k : ℕ) : Prop :=
  fixedRoot v rootDirectory = true ∧
    rootDirLastSector v ≤ wrap32 (windowStart v s rootDirectory c k + 1)

/-- The chain ends behind window number `k`, so that the directory would grow there. -/
def GrowsAt (v : Volume) (s : State) (rootDirectory : Bool) (c k : ℕ) : Prop :=
  fixedRoot v rootDirectory = false ∧
    v.clusterEnd ≤ tableEntry v s (positionAt v s rootDirectory c k).2

/-- The search returns at window number `k`. -/
def SearchStops (v : Volume) (s : State) (rootDirectory : Bool) (c n k : ℕ) : Prop :=
  ChainStops v (positionAt v s rootDirectory c k).2 ∨ RunEndsIn v s rootDirectory c n k ∨
    LastWindow v s rootDirectory c k

/-- What the search carries along in front of window number `k`. -/
structure SearchAt (v : Volume) (s : State) (rootDirectory : Bool) (c n : ℕ) where
  k : ℕ
  search : Search
  tracks : Tracks (WalkFree v s rootDirectory c) (walkTarget v s rootDirectory c) n
    (k * v.slotsPerCluster) search

/-- The next position of the walk. -/
theorem positionAt_succ (v : Volume) (s : State) (rootDirectory : Bool) (c k : ℕ) :
    positionAt v s rootDirectory c (k + 1) =
      if fixedRoot v rootDirectory then
        (wrap32 (windowStart v s rootDirectory c k + 1), (positionAt v s rootDirectory c k).2)
      else (windowStart v s rootDirectory c k,
        tableEntry v s (positionAt v s rootDirectory c k).2) := by
  rw [positionAt, Function.iterate_succ_apply']
  rfl

/-- In a chain the positions follow the links. -/
theorem positionAt_chain {rootDirectory : Bool} (hroot : fixedRoot v rootDirectory = false) (c k : ℕ) :
    (positionAt v s rootDirectory c k).2 = (tableEntry v s)^[k] c := by
  induction k with
  | zero => rfl
  | succ k ih =>
    rw [positionAt_succ, if_neg (by simp [hroot]), ih, Function.iterate_succ_apply']

/-- A link that is not 0 is the link of a cluster. -/
theorem isCluster_of_tableEntry {c : ℕ} (h : tableEntry v s c ≠ 0) : 2 ≤ c ∧ c ≤ v.totalClusters := by
  by_contra hout
  exact h (if_pos (by omega))

/-- Counting up from zero. -/
theorem iterate_succ_zero (k : ℕ) : Nat.succ^[k] 0 = k := by
  induction k with
  | zero => rfl
  | succ k ih => rw [Function.iterate_succ_apply', ih]

section Search

variable (hread : ∀ h a, v.readStatus h a = 0) (hslots : v.slotsPerSector < 256)
  {rootDirectory : Bool} {c n : ℕ} (hn' : n < 2 ^ 32) {budget : ℕ} (hbudget : v.slotsPerSector < budget)
  (x : SearchAt v s rootDirectory c n) (hreads : Reads v s t)

/-- The search from what it carries along. -/
def SearchAt.run (budget fuel : ℕ) (x : SearchAt v s rootDirectory c n) : FatM (Option Target) :=
  findEntryLoop v n rootDirectory budget fuel (positionAt v s rootDirectory c x.k).1
    (positionAt v s rootDirectory c x.k).2 x.search

include hread hslots hn' hbudget hreads

/-- The search in the next window. -/
theorem SearchAt.window :
    ∃ result u, (searchSectors v budget (positionAt v s rootDirectory c x.k).2
        (windowStart v s rootDirectory c x.k) n v.sectorsPerCluster 0 x.search).run t =
      .ok (Sum.map id some result) u ∧ Reads v t u ∧
      Outcome (WalkFree v s rootDirectory c) (walkTarget v s rootDirectory c) n
        (x.k * v.slotsPerCluster) ((x.k + 1) * v.slotsPerCluster) result := by
  refine x.tracks.searchWindow hread hslots _ _ hn' hbudget (fun q hq => ?_) fun q hq => ?_
  · rw [WalkFree, (block_div_mod hq).1, (block_div_mod hq).2, windowSlot, windowSlot, hreads.blockAt_eq]
  · rw [walkTarget, (block_div_mod hq).1, (block_div_mod hq).2]

section

variable (hgo : ¬ ChainStops v (positionAt v s rootDirectory c x.k).2)
include hgo

/-- A window in which the first run ends. -/
theorem SearchAt.run_of_found (hruns : RunEndsIn v s rootDirectory c n x.k) :
    ∃ r u, FirstRun (WalkFree v s rootDirectory c) n r ∧ Reads v t u ∧ ∀ fuel,
      (SearchAt.run budget (fuel + 1) x).run t = .ok (some (walkTarget v s rootDirectory c r)) u := by
  obtain ⟨result, u, hrun, hreads', houtcome⟩ := x.window hread hslots hn' hbudget hreads
  cases result with
  | inl st' =>
    obtain ⟨r, hfirst, -, hhigh⟩ := hruns
    exact absurd hfirst.run (houtcome.seen.none r hhigh)
  | inr found =>
    obtain ⟨r, hfirst, -, -, rfl⟩ := houtcome
    refine ⟨r, u, hfirst, hreads', fun fuel => ?_⟩
    rw [SearchAt.run, findEntryLoop, if_neg hgo]
    exact (bind_of_ok hrun).trans rfl

/-- A window in which no run ends: what the search does next. -/
theorem SearchAt.run_of_not_found (hnone : ¬ RunEndsIn v s rootDirectory c n x.k) :
    ∃ st' u, Reads v t u ∧
      Tracks (WalkFree v s rootDirectory c) (walkTarget v s rootDirectory c) n
        ((x.k + 1) * v.slotsPerCluster) st' ∧
      ∀ fuel, (SearchAt.run budget (fuel + 1) x).run t =
        (if fixedRoot v rootDirectory then
          if rootDirLastSector v ≤ wrap32 (windowStart v s rootDirectory c x.k + 1) then return none
          else findEntryLoop v n rootDirectory budget fuel (wrap32 (windowStart v s rootDirectory c x.k + 1))
            (positionAt v s rootDirectory c x.k).2 st'
        else do
          let next ← readTable v (positionAt v s rootDirectory c x.k).2
          if v.clusterEnd ≤ next then do
            let newCluster ← allocateCluster v
            clearCluster v newCluster
            writeTable v (positionAt v s rootDirectory c x.k).2 newCluster
            findEntryLoop v n rootDirectory budget fuel (windowStart v s rootDirectory c x.k) newCluster st'
          else findEntryLoop v n rootDirectory budget fuel (windowStart v s rootDirectory c x.k) next st' :
          FatM (Option Target)).run u := by
  obtain ⟨result, u, hrun, hreads', houtcome⟩ := x.window hread hslots hn' hbudget hreads
  cases result with
  | inr found =>
    obtain ⟨r, hfirst, hlow, hhigh, -⟩ := houtcome
    exact absurd ⟨r, hfirst, hlow, hhigh⟩ hnone
  | inl st' =>
    refine ⟨st', u, hreads', houtcome, fun fuel => ?_⟩
    rw [SearchAt.run, findEntryLoop, if_neg hgo]
    exact bind_of_ok hrun

end

omit hreads in
/-- As long as it only reads, the search is driven by the number of its window. -/
theorem driven_findEntryLoop :
    Driven (fun fuel (x : SearchAt v s rootDirectory c n) => SearchAt.run budget fuel x) SearchAt.k Nat.succ
      (fun k => SearchStops v s rootDirectory c n k ∨ GrowsAt v s rootDirectory c k) True (Reads v s) := by
  refine ⟨fun x s b t h => (by cases h), fun x t hreads hnot _ => ?_, fun hdead => absurd trivial hdead⟩
  obtain ⟨hstop, hgrow⟩ := not_or.mp hnot
  obtain ⟨hgo, hrest⟩ := not_or.mp hstop
  obtain ⟨hnone, hlast⟩ := not_or.mp hrest
  obtain ⟨st', u, hreads', htracks, hrun⟩ := x.run_of_not_found hread hslots hn' hbudget hreads hgo hnone
  have hboth := hreads.trans hreads'
  by_cases hroot : fixedRoot v rootDirectory = true
  · refine ⟨⟨x.k + 1, st', htracks⟩, u, hboth, rfl, fun fuel => ?_⟩
    rw [hrun fuel, if_pos hroot, if_neg fun h => hlast ⟨hroot, h⟩, SearchAt.run, positionAt_succ,
      if_pos hroot]
  · have hchain : fixedRoot v rootDirectory = false := by simpa using hroot
    obtain ⟨w, hnext, hreads''⟩ := readTable_run hread (positionAt v s rootDirectory c x.k).2 u
    refine ⟨⟨x.k + 1, st', htracks⟩, w, hboth.trans hreads'', rfl, fun fuel => ?_⟩
    rw [hrun fuel, if_neg hroot, bind_of_ok hnext, hboth.tableEntry_eq, if_neg fun h => hgrow ⟨hchain, h⟩,
      SearchAt.run, positionAt_succ, if_neg hroot]

end Search

/-- Where the search starts. -/
def searchStartAt (v : Volume) (s : State) (rootDirectory : Bool) (c : ℕ) {n : ℕ} (hn : 0 < n) :
    SearchAt v s rootDirectory c n :=
  ⟨0, ⟨0, ⟨0, 0, 0⟩⟩, by rw [Nat.zero_mul]; exact tracks_zero hn _⟩

/-- The search starts with the first cluster. -/
@[simp] theorem searchStartAt_k (v : Volume) (s : State) (rootDirectory : Bool) (c : ℕ) {n : ℕ}
    (hn : 0 < n) : (searchStartAt v s rootDirectory c hn).k = 0 := rfl

section Returning

variable (hdev : v.AlwaysSucceeds) (hslots : v.slotsPerSector < 256) {rootDirectory : Bool} {c n : ℕ}
  (hn : 0 < n) (hn' : n < 2 ^ 32)
include hdev hslots hn hn'

omit hn in
/-- The search returns where it stops. -/
theorem SearchAt.exists_ok_of_stops {budget : ℕ} (hbudget : v.slotsPerSector < budget)
    (x : SearchAt v s rootDirectory c n) (hreads : Reads v s t)
    (hstop : SearchStops v s rootDirectory c n x.k) :
    ∃ fuel r u, (SearchAt.run budget fuel x).run t = .ok r u := by
  refine ⟨1, ?_⟩
  by_cases hchain : ChainStops v (positionAt v s rootDirectory c x.k).2
  · rw [SearchAt.run, findEntryLoop, if_pos hchain]
    exact ⟨_, _, rfl⟩
  by_cases hruns : RunEndsIn v s rootDirectory c n x.k
  · obtain ⟨r, u, -, -, hrun⟩ := x.run_of_found hdev.1 hslots hn' hbudget hreads hchain hruns
    exact ⟨_, u, hrun 0⟩
  · obtain ⟨hroot, hlast⟩ := (hstop.resolve_left hchain).resolve_left hruns
    obtain ⟨st', u, -, -, hrun⟩ := x.run_of_not_found hdev.1 hslots hn' hbudget hreads hchain hruns
    refine ⟨none, u, ?_⟩
    rw [hrun 0, if_pos hroot, if_pos hlast]
    rfl

/-- A search that has no chain to extend returns exactly if it comes to a window where it stops. -/
theorem findEntryStartpoint_returns_iff (hquiet : ∀ k, ¬ GrowsAt v s rootDirectory c k) :
    (∃ r t, Returns (fun fuel => findEntryStartpoint v fuel c n rootDirectory) s r t) ↔
      ∃ k, SearchStops v s rootDirectory c n k := by
  have hiff (budget : ℕ) (hbudget : v.slotsPerSector < budget) :=
    (driven_findEntryLoop hdev.1 hslots hn' hbudget).exists_ok_iff
      (x := searchStartAt v s rootDirectory c hn) (Observes.refl v _ s) fun x t hreads hstop =>
        x.exists_ok_of_stops hdev hslots hn' hbudget hreads (hstop.resolve_right (hquiet x.k))
  have hstops : (∃ k, (k = 0 ∨ True) ∧ (SearchStops v s rootDirectory c n (Nat.succ^[k] 0) ∨
      GrowsAt v s rootDirectory c (Nat.succ^[k] 0))) ↔ ∃ k, SearchStops v s rootDirectory c n k := by
    simp [iterate_succ_zero, hquiet]
  rw [← hstops]
  constructor
  · rintro ⟨r, t, fuel, hfuel⟩
    exact (hiff (fuel + v.slotsPerSector + 1) (by omega)).mp ⟨_, r, t, hfuel _ (by omega)⟩
  · intro h
    obtain ⟨fuel, r, t, hrun⟩ := (hiff (v.slotsPerSector + 1) (by omega)).mpr h
    refine ⟨r, t, (findEntryStartpoint_stable v c n rootDirectory).returns
      (n := fuel + (v.slotsPerSector + 1)) ?_⟩
    exact findEntryLoop_stable v n rootDirectory (by omega) (by omega) hrun

/-- A chain that is led on returns, on a well-formed volume. -/
theorem findEntryStartpoint_grows (hwf : v.WellFormed) (hwhole : WholeEntries v)
    (hstart : 2 ≤ s.startSearchCluster) (hgrows : ∃ k, GrowsAt v s rootDirectory c k) :
    ∃ r t, Returns (fun fuel => findEntryStartpoint v fuel c n rootDirectory) s r t := by
  obtain ⟨m, hroot, hend⟩ := hgrows
  have hlt := hwf.clusters_lt
  rw [positionAt_chain hroot, ← Function.iterate_succ_apply' (tableEntry v s) m c] at hend
  have hends : ∃ k, ChainStops v ((tableEntry v s)^[k] c) := ⟨m + 1, Or.inr hend⟩
  classical
  obtain ⟨k, hstop, hgo⟩ : ∃ k, ChainStops v ((tableEntry v s)^[k] c) ∧
      ∀ j < k, ¬ ChainStops v ((tableEntry v s)^[j] c) :=
    ⟨Nat.find hends, Nat.find_spec hends, fun j hj => Nat.find_min hends hj⟩
  -- the walk does not come to 0, where it would stay
  have hnonzero (j : ℕ) (hj : j ≤ m + 1) : (tableEntry v s)^[j] c ≠ 0 := by
    intro hzero
    obtain ⟨d, hd⟩ := Nat.exists_eq_add_of_le hj
    rw [Nat.succ_eq_add_one, hd, Nat.add_comm, Function.iterate_add_apply, hzero,
      Function.iterate_fixed (show tableEntry v s 0 = 0 from if_pos (by omega))] at hend
    omega
  have hle : k ≤ m + 1 := Nat.le_of_not_lt fun h => hgo (m + 1) h (Or.inr hend)
  have hend : v.clusterEnd ≤ (tableEntry v s)^[k] c := hstop.resolve_left (hnonzero k hle)
  cases k with
  | zero =>
    refine ⟨none, s, (findEntryStartpoint_stable v c n rootDirectory).returns (n := 1) ?_⟩
    change (findEntryLoop v n rootDirectory 1 1 0 c _).run s = _
    rw [findEntryLoop, if_pos (show ChainStops v c from Or.inr hend)]
    rfl
  | succ k =>
    have hwalk : Walks (tableEntry v s) (v.clusterEnd ≤ ·) c
        ((List.range (k + 1)).map fun j => (tableEntry v s)^[j] c) :=
      walks_iterate (fun j hj hend => hgo j hj (Or.inr hend)) hend
    have hmem {x : ℕ} (hx : x ∈ (List.range (k + 1)).map fun j => (tableEntry v s)^[j] c) :
        2 ≤ x ∧ x ≤ v.totalClusters := by
      obtain ⟨j, hj, rfl⟩ := List.mem_map.mp hx
      have hj := List.mem_range.mp hj
      apply isCluster_of_tableEntry
      rw [← Function.iterate_succ_apply' (tableEntry v s) j c]
      exact hnonzero (j + 1) (by omega)
    have hchain : FileChain v s c ((List.range (k + 1)).map fun j => (tableEntry v s)^[j] c) := by
      refine Or.inr ⟨hwalk.congr fun x hx => ?_, fun x hx => ?_⟩
      · exact ((hwf.placed hwhole (hmem hx).2).tableEntry_eq s (hmem hx).1 (hmem hx).2).symm
      · have := hmem hx
        exact ⟨this.1, by omega⟩
    rw [List.range_succ, List.map_append] at hchain
    obtain ⟨r, t, hrun, -⟩ := findEntryStartpoint_chain hdev hwf hwhole hslots hroot hn hn' hchain hstart
      (Nat.lt_succ_self _)
    exact ⟨r, t, (findEntryStartpoint_stable v c n rootDirectory).returns hrun⟩

end Returning

/-- A FAT16 image whose cluster 2 is linked to itself. -/
def loopImage : ℕ → Bytes := diskImage [(0, fat16Boot), (1, [0xF8, 0xFF, 0xFF, 0xFF, 2, 0])]

/-- The sample volume whose cluster 2 leads to itself is mounted. -/
theorem loopImage_mounts : ∃ v t,
    (fatInitialize steadyDevice 0 (fun _ => 0) fun _ => 0).run (mounted loopImage) = .ok (some v) t ∧
      v.AlwaysSucceeds ∧ tableEntry v t 2 = 2 ∧ ¬ ChainStops v 2 :=
  ⟨_, _, rfl, ⟨fun _ _ => rfl, fun _ _ => rfl⟩, by decide +kernel, by decide +kernel⟩

end Vsos.Fat
