import Vsos.Fat.File
import Vsos.Fat.Reading
import Vsos.Lib.Chain

/-!
# The copy loop of `ReadFile`

The loop visits the sectors of a chain one after the other. Before sector number `k` of the
file is copied, `bufferPointer` is `k` sectors into the buffer and `bytesRead` is that
distance cut to 32 bits. So the stores of a run are known in advance: a failing driver can
only cut the sequence short.
-/

namespace Vsos.Fat

open Vsos.Lib

variable {v : Volume} {st : Copy} {cluster j : ℕ}

/-- The store that `ReadFile` makes for sector number `k` of a file. -/
def storeOf (v : Volume) (len k : ℕ) : Event :=
  .store (k * v.bytesPerSector) (copyCount v len (wrap32 (k * v.bytesPerSector)))

/-- The accesses of the copy loop for the sectors from `j` up to `m`. -/
def CopyEvent (v : Volume) (len j m : ℕ) (e : Event) : Prop :=
  e.IsRead ∨ ∃ k, j ≤ k ∧ k < m ∧ e = storeOf v len k

/-- The loop variables before sector number `k`. -/
structure Copy.At (v : Volume) (k : ℕ) (st : Copy) : Prop where
  bytesRead : st.bytesRead = wrap32 (k * v.bytesPerSector)
  bufferPointer : st.bufferPointer = k * v.bytesPerSector

/-- One sector further. -/
theorem Copy.At.next {k : ℕ} (h : st.At v k) (len : ℕ) (source : Bytes) :
    (copySector v len st source).At v (k + 1) := by
  refine ⟨?_, ?_⟩
  · change wrap32 (st.bytesRead + v.bytesPerSector) = _
    rw [h.bytesRead, wrap32, wrap32, wrap32, Nat.mod_add_mod, Nat.succ_mul]
  · change st.bufferPointer + v.bytesPerSector = _
    rw [h.bufferPointer, Nat.succ_mul]

/-- A longer stretch of sectors allows more accesses. -/
theorem CopyEvent.mono {len m j' m' : ℕ} {e : Event} (h : CopyEvent v len j m e) (hj : j' ≤ j)
    (hm : m ≤ m') : CopyEvent v len j' m' e := by
  rcases h with h | ⟨k, hjk, hkm, rfl⟩
  · exact Or.inl h
  · exact Or.inr ⟨k, hj.trans hjk, lt_of_lt_of_le hkm hm, rfl⟩

/-- Recording an access that is allowed. -/
theorem observes_emit {P : Event → Prop} {e : Event} (he : P e) (s : State) :
    Observes v P s { s with trace := e :: s.trace } :=
  ⟨rfl, rfl, fun _ _ => rfl, [e], rfl, fun _ he' => List.mem_singleton.mp he' ▸ he⟩

/-- A read fails, or it fills the buffer. -/
theorem readSector_cases (v : Volume) (address : ℕ) (s : State) :
    ∃ t, (readSector v address).run s = .ok (v.readStatus s.trace address) t ∧ Reads v s t ∧
      (v.readStatus s.trace address = 0 → t = s.afterRead v address) := by
  refine ⟨_, rfl, keepsReads_readSector v address s, fun hstatus => ?_⟩
  simp only [hstatus, if_true, State.afterRead, blockAt]

/-- One cluster, with any driver: the accesses, and what was copied by a loop that came to its
end. -/
theorem readSectors_run (v : Volume) (len sector n i j : ℕ) (st : Copy) (hst : st.At v j) (s : State) :
    ∃ done st' t, (readSectors v len sector n i st).run s = .ok (done, st') t ∧
      Observes v (CopyEvent v len j (j + n)) s t ∧ ((∀ h a, v.readStatus h a = 0) → done = true) ∧
      (done = true → st'.At v (j + n) ∧
        st' = ((List.range' i n).map fun k => blockAt v s (lba v sector k)).foldl (copySector v len) st ∧
        ∀ k, j ≤ k → k < j + n → storeOf v len k ∈ eventsSince s t) := by
  induction n generalizing i j st s with
  | zero =>
    exact ⟨true, st, s, rfl, Observes.refl v _ s, fun _ => rfl, fun _ => ⟨hst, rfl, fun k h h' => by omega⟩⟩
  | succ n ih =>
    obtain ⟨t, hread, hreads, hfilled⟩ := readSector_cases v (lba v sector i) s
    have hobs : Observes v (CopyEvent v len j (j + (n + 1))) s t := hreads.mono fun _ => Or.inl
    rw [readSectors, bind_of_ok hread]
    by_cases hstatus : v.readStatus s.trace (lba v sector i) ≠ 0
    · rw [if_pos hstatus]
      exact ⟨false, st, t, rfl, hobs, fun h => absurd (h _ _) hstatus, nofun⟩
    · rw [if_neg hstatus]
      have hbuffer : t.readBuffer = blockAt v s (lba v sector i) := by
        rw [hfilled (not_not.mp hstatus)]
        rfl
      have hemit : storeOf v len j = .store st.bufferPointer (copyCount v len st.bytesRead) := by
        rw [storeOf, hst.bytesRead, hst.bufferPointer]
      let t' : State := { t with trace := .store st.bufferPointer (copyCount v len st.bytesRead) :: t.trace }
      have hobs' : Observes v (CopyEvent v len j (j + (n + 1))) s t' :=
        hobs.trans (observes_emit (Or.inr ⟨j, le_refl j, by omega, hemit.symm⟩) t)
      obtain ⟨done, st', u, hrun, hobs'', hdone, hcopied⟩ := ih (i + 1) (j + 1)
        (copySector v len st t.readBuffer) (hst.next len _) t'
      refine ⟨done, st', u, hrun, hobs'.trans (hobs''.mono fun e he => he.mono (by omega) (by omega)),
        hdone, fun h => ?_⟩
      obtain ⟨hat, hst', hmem⟩ := hcopied h
      refine ⟨by rwa [show j + (n + 1) = j + 1 + n by omega], ?_, fun k hjk hk => ?_⟩
      · rw [hst', List.range'_succ, List.map_cons, List.foldl_cons, hbuffer]
        simp only [hobs'.blockAt_eq]
      · rw [hobs'.eventsSince_append hobs'']
        by_cases hkj : k = j
        · refine List.mem_append_right _ ?_
          rw [hobs.eventsSince_append (observes_emit (P := fun _ => True) trivial t), hkj, hemit,
            @eventsSince_eq t t' [_] rfl]
          exact List.mem_cons_self
        · exact List.mem_append_left _ (hmem k (by omega) (by omega))

/-- `ReadTable` with any driver: the entry of the disk, or 0 after a failed read. -/
theorem readTable_cases (v : Volume) (cluster : ℕ) (s : State) :
    ∃ next t, (readTable v cluster).run s = .ok next t ∧ Reads v s t ∧
      (next = clusterFree ∨ next = tableEntry v s cluster) ∧
      ((∀ h a, v.readStatus h a = 0) → next = tableEntry v s cluster) := by
  unfold readTable tableEntry
  by_cases hc : cluster < 2 ∨ v.totalClusters < cluster
  · rw [if_pos hc, if_pos hc]
    exact ⟨0, s, rfl, Observes.refl v _ s, Or.inl rfl, fun _ => rfl⟩
  · obtain ⟨t, hrun, hreads, hfilled⟩ := readSector_cases v (lba v (fatSector v cluster) 0) s
    rw [if_neg hc, if_neg hc, bind_of_ok hrun]
    by_cases hstatus : v.readStatus s.trace (lba v (fatSector v cluster) 0) ≠ 0
    · rw [if_pos hstatus]
      exact ⟨0, t, rfl, hreads, Or.inl rfl, fun h => absurd (h _ _) hstatus⟩
    · obtain rfl := hfilled (not_not.mp hstatus)
      rw [if_neg hstatus]
      exact ⟨_, _, rfl, hreads, Or.inr rfl, fun _ => rfl⟩

/-- A walk whose start ends it reads nothing. -/
theorem readClusters_of_stops (h : ChainStops v cluster) (len fuel : ℕ) (st : Copy) (s : State) :
    final ((readClusters v len fuel cluster st).run s) = s := by
  cases fuel with
  | zero => rfl
  | succ fuel =>
    rw [readClusters, if_pos h]
    rfl

/-- The blocks of a chain in file order. -/
def chainBlocks (v : Volume) (s : State) (l : List ℕ) : List Bytes :=
  l.flatMap fun c => (List.range v.sectorsPerCluster).map fun i =>
    blockAt v s (lba v (clusterToSector v c) i)

/-- Reads do not change the blocks of a chain. -/
theorem Observes.chainBlocks_eq {P : Event → Prop} {s t : State} (h : Observes v P s t) (l : List ℕ) :
    chainBlocks v t l = chainBlocks v s l := by
  simp only [chainBlocks, h.blockAt_eq]

/-- A chain, with any driver and any budget: the accesses. On a disk that answers the loop returns
with enough budget, having copied every block. -/
theorem readClusters_run (v : Volume) (len fuel : ℕ) {l : List ℕ} {s : State}
    (hwalk : Walks (tableEntry v s) (ChainStops v) cluster l) (hst : st.At v j) :
    Observes v (CopyEvent v len j (j + l.length * v.sectorsPerCluster)) s
        (final ((readClusters v len fuel cluster st).run s)) ∧
      ((∀ h a, v.readStatus h a = 0) → l.length < fuel →
        ∃ t, (readClusters v len fuel cluster st).run s =
            .ok (0, ((chainBlocks v s l).foldl (copySector v len) st).buffer) t ∧
          ∀ k, j ≤ k → k < j + l.length * v.sectorsPerCluster → storeOf v len k ∈ eventsSince s t) := by
  induction l generalizing fuel cluster s j st with
  | nil =>
    have hstop : ChainStops v cluster := hwalk
    rw [readClusters_of_stops hstop]
    refine ⟨Observes.refl v _ s, fun _ hfuel => ?_⟩
    obtain ⟨fuel, rfl⟩ := Nat.exists_eq_succ_of_ne_zero (Nat.ne_of_gt hfuel)
    rw [readClusters, if_pos hstop]
    exact ⟨s, rfl, fun k h h' => by simp at h'; omega⟩
  | cons b l ih =>
    obtain ⟨rfl, hgo, hrest⟩ := hwalk
    cases fuel with
    | zero => exact ⟨Observes.refl v _ s, fun _ hfuel => by omega⟩
    | succ fuel =>
      rw [readClusters, if_neg hgo]
      obtain ⟨done, st', t, hrun, hobs, hdone, hcopied⟩ :=
        readSectors_run v len (clusterToSector v cluster) v.sectorsPerCluster 0 j st hst s
      have hlen : j + v.sectorsPerCluster + l.length * v.sectorsPerCluster =
          j + (cluster :: l).length * v.sectorsPerCluster := by
        rw [List.length_cons, Nat.succ_mul]
        omega
      have hobs' : Observes v (CopyEvent v len j (j + (cluster :: l).length * v.sectorsPerCluster)) s t :=
        hobs.mono fun e he => he.mono (le_refl j) (by omega)
      rw [bind_of_ok hrun]
      cases done with
      | false => exact ⟨hobs', fun hread => nomatch hdone hread⟩
      | true =>
        obtain ⟨hat, hst', hmem⟩ := hcopied rfl
        obtain ⟨next, u, hnext, hreads, hcase, hfound⟩ := readTable_cases v cluster t
        have hobs'' := hobs'.trans (hreads.mono fun _ => Or.inl)
        rw [hobs.tableEntry_eq] at hcase hfound
        have hwalk' := hrest.congr fun c _ => hobs''.tableEntry_eq c
        rw [bind_of_ok hnext]
        constructor
        · rcases hcase with rfl | rfl
          · rw [readClusters_of_stops (Or.inl rfl)]
            exact hobs''
          · have hstep := (ih fuel hwalk' hat).1
            rw [hlen] at hstep
            exact hobs''.trans (hstep.mono fun e he => he.mono (by omega) (le_refl _))
        · intro hread hfuel
          rw [hfound hread]
          obtain ⟨hstep, hreturns⟩ := ih fuel hwalk' hat
          obtain ⟨w, hrun', hmem'⟩ := hreturns hread (by simpa using hfuel)
          rw [hrun'] at hstep ⊢
          change Observes v _ u w at hstep
          rw [hlen] at hmem'
          refine ⟨w, ?_, fun k hjk hk => ?_⟩
          · rw [hobs''.chainBlocks_eq, hst', ← List.range_eq_range', ← List.foldl_append]
            rfl
          · rw [hobs''.eventsSince_append hstep]
            by_cases hkt : k < j + v.sectorsPerCluster
            · refine List.mem_append_right _ ?_
              rw [hobs.eventsSince_append hreads]
              exact List.mem_append_right _ (hmem k hjk hkt)
            · exact List.mem_append_left _ (hmem' k (by omega) hk)

end Vsos.Fat
