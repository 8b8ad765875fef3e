import Vsos.Fat.TableMap
import Vsos.Lib.Runs
import Mathlib.Order.Interval.Finset.Nat

/-!
# The search for a free cluster

`AllocateCluster` reads the entries from the start of the search on, and takes the first cluster
whose entry reads as 0. A read that fails looks the same as a free entry, the search never comes
back to clusters in front of its start, and it ends in front of the last two cluster numbers of the
volume. A result is sound when the entry was free on the disk and is marked now; a search is
complete when it gives up only on a full volume.
-/

namespace Vsos.Fat

open Vsos.Lib

variable {v : Volume} {s t u : State} {cluster value : ℕ}

/-- The access succeeds after the accesses in `old`. -/
def Event.Succeeds (v : Volume) (old : List Event) : Event → Prop
  | .readSector a => v.readStatus old a = 0
  | .writeSector a => v.writeStatus old a = 0
  | _ => True

/-- The accesses in `new`, the last one first, all succeed after those in `old`. -/
def Succeed (v : Volume) (old : List Event) : List Event → Prop
  | [] => True
  | e :: new => e.Succeeds v (new ++ old) ∧ Succeed v old new

/-- The address at which the driver looks for the entry of a cluster. -/
def tableSector (v : Volume) (cluster : ℕ) : ℕ := lba v (fatSector v cluster) 0

/-- The accesses of a search over `n` clusters. -/
def searchEvents (v : Volume) (start : ℕ) : ℕ → List Event
  | 0 => []
  | n + 1 => .readSector (tableSector v (start + n)) :: searchEvents v start n

/-- The search passes over its cluster number `n`: the entry can be read, and is not 0. -/
def PassesOver (v : Volume) (s : State) (n : ℕ) : Prop :=
  v.readStatus (searchEvents v s.startSearchCluster n ++ s.trace)
      (tableSector v (s.startSearchCluster + n)) = 0 ∧
    tableEntry v s (s.startSearchCluster + n) ≠ 0

/-- The search ends at its cluster number `n`. -/
structure Stops (v : Volume) (s : State) (n : ℕ) : Prop where
  lt : s.startSearchCluster + n < v.totalClusters
  passed : ∀ m < n, PassesOver v s m
  here : ¬ PassesOver v s n

/-- All accesses of a call that ends at cluster number `n` succeed: those of the search, and those
that mark the entry. -/
def Completes (v : Volume) (s : State) (n : ℕ) : Prop :=
  let a := tableSector v (s.startSearchCluster + n)
  Succeed v s.trace (.writeSector a :: .readSector a :: searchEvents v s.startSearchCluster (n + 1))

/-- The call takes the cluster number `n` of the search. -/
structure Takes (v : Volume) (s t : State) (n : ℕ) : Prop where
  stops : Stops v s n
  start : t.startSearchCluster = s.startSearchCluster + n
  trace : ∃ new, t.trace = new ++ s.trace ∧ (Succeed v s.trace new ↔ Completes v s n)
  data : Completes v s n →
    t.data = (s.afterStore v (s.startSearchCluster + n) v.clusterEnd).data

section Accesses

/-- A read that succeeds. -/
theorem readSector_of_ok {a : ℕ} (hstatus : v.readStatus s.trace a = 0) :
    (readSector v a).run s = .ok 0 (s.afterRead v a) := by
  change EStateM.Result.ok _ _ = _
  simp only [hstatus, if_true, State.afterRead, blockAt]

/-- A read that fails. -/
theorem readSector_of_failed {a : ℕ} (hstatus : v.readStatus s.trace a ≠ 0) :
    (readSector v a).run s = .ok (v.readStatus s.trace a) { s with trace := .readSector a :: s.trace } := by
  change EStateM.Result.ok _ _ = _
  simp only [hstatus, if_false]

/-- `ReadTable` on a disk that may fail. -/
theorem readTable_fallible (hc : InTable v cluster) (s : State) :
    ∃ t, (readTable v cluster).run s =
        .ok (if v.readStatus s.trace (tableSector v cluster) = 0 then tableEntry v s cluster else 0) t ∧
      SameView v s t ∧ t.trace = .readSector (tableSector v cluster) :: s.trace ∧
      t.startSearchCluster = s.startSearchCluster := by
  have hrange : ¬ (cluster < 2 ∨ v.totalClusters < cluster) := by
    obtain ⟨hlow, hhigh⟩ := hc
    omega
  rw [readTable, if_neg hrange, tableEntry, if_neg hrange]
  by_cases hstatus : v.readStatus s.trace (tableSector v cluster) = 0
  · refine ⟨s.afterRead v (tableSector v cluster), ?_, ?_, rfl, rfl⟩
    · rw [if_pos hstatus]
      exact bind_of_ok (readSector_of_ok hstatus)
    · exact (reads_afterRead v s (tableSector v cluster)).sameView
  · refine ⟨{ s with trace := .readSector (tableSector v cluster) :: s.trace }, ?_, ⟨rfl, fun _ _ => rfl⟩,
      rfl, rfl⟩
    rw [if_neg hstatus]
    refine (bind_of_ok (readSector_of_failed hstatus)).trans ?_
    rw [if_pos hstatus]
    rfl

/-- `WriteTable` on a disk that may fail. The entry is written if both accesses succeed, and the
second one is only made after the first one succeeded. -/
theorem writeTable_fallible (hc : InTable v cluster) (value : ℕ) (s : State) :
    ∃ t new, (writeTable v cluster value).run s = .ok () t ∧
      t.startSearchCluster = s.startSearchCluster ∧ t.trace = new ++ s.trace ∧
      (∀ old mid, s.trace = mid ++ old →
        (Succeed v old (new ++ mid) ↔ Succeed v old
          (.writeSector (tableSector v cluster) :: .readSector (tableSector v cluster) :: mid))) ∧
      (v.readStatus s.trace (tableSector v cluster) = 0 →
        v.writeStatus (.readSector (tableSector v cluster) :: s.trace) (tableSector v cluster) = 0 →
        t.data = (s.afterStore v cluster value).data) := by
  have hrange : ¬ (cluster < 2 ∨ v.totalClusters < cluster) := by
    obtain ⟨hlow, hhigh⟩ := hc
    omega
  rw [writeTable, if_neg hrange]
  by_cases hstatus : v.readStatus s.trace (tableSector v cluster) = 0
  · refine ⟨_, [.writeSector (tableSector v cluster), .readSector (tableSector v cluster)],
      (bind_of_ok (readSector_of_ok hstatus)).trans rfl, rfl, rfl, fun _ _ _ => Iff.rfl, fun _ hwrite => ?_⟩
    change (if v.writeStatus _ _ = 0 then _ else _) = _
    exact if_pos hwrite
  · refine ⟨{ s with trace := .readSector (tableSector v cluster) :: s.trace },
      [.readSector (tableSector v cluster)], ?_, rfl, rfl, ?_, fun h => absurd h hstatus⟩
    · refine (bind_of_ok (readSector_of_failed hstatus)).trans ?_
      rw [if_pos hstatus]
      rfl
    · -- the failed read is an access of both lists
      intro old mid htrace
      rw [htrace] at hstatus
      constructor
      · exact fun h => absurd h.1 hstatus
      · exact fun h => absurd h.2.1 hstatus

end Accesses

section Search

/-- A store to the table writes the same bytes in states that look the same. -/
theorem SameView.afterStore_eq (h : SameView v s t) (cluster value : ℕ) :
    (t.afterStore v cluster value).data = (s.afterStore v cluster value).data := by
  simp only [State.afterStore, h.blockAt_eq, h.data]

/-- The call marks the entry at which the search ends. -/
theorem takes_of_stops {n : ℕ} (hstops : Stops v s n) (hstart : 2 ≤ s.startSearchCluster)
    (hview : SameView v s u)
    (htrace : u.trace = searchEvents v s.startSearchCluster (n + 1) ++ s.trace) :
    ∃ t, (do
        setStartSearchCluster (s.startSearchCluster + n)
        writeTable v (s.startSearchCluster + n) v.clusterEnd
        return s.startSearchCluster + n).run u = .ok (s.startSearchCluster + n) t ∧ Takes v s t n := by
  have hin : InTable v (s.startSearchCluster + n) := ⟨by omega, hstops.lt.le⟩
  let w : State := { u with startSearchCluster := s.startSearchCluster + n }
  have hview' : SameView v s w := ⟨hview.data, hview.behind⟩
  obtain ⟨t, new, hrun, hcursor, hnew, hsucceed, hdata⟩ := writeTable_fallible hin v.clusterEnd w
  refine ⟨t, ?_, hstops, hcursor, ⟨new ++ searchEvents v s.startSearchCluster (n + 1), ?_, ?_⟩, ?_⟩
  · refine (bind_change).trans ?_
    exact (bind_of_ok hrun).trans rfl
  · rw [hnew, List.append_assoc]
    exact congrArg (new ++ ·) htrace
  · exact hsucceed s.trace _ htrace
  · intro hcomplete
    rw [← hview'.afterStore_eq]
    have htrace' : w.trace = searchEvents v s.startSearchCluster (n + 1) ++ s.trace := htrace
    refine hdata ?_ ?_
    · rw [htrace']
      exact hcomplete.2.1
    · rw [htrace']
      exact hcomplete.1

/-- The search from its cluster number `m` on. -/
theorem allocateLoop_search (hstart : 2 ≤ s.startSearchCluster) {m n : ℕ}
    (hrange : s.startSearchCluster + m + n ≤ v.totalClusters) (hview : SameView v s u)
    (hcursor : u.startSearchCluster = s.startSearchCluster)
    (htrace : u.trace = searchEvents v s.startSearchCluster m ++ s.trace)
    (hpassed : ∀ k < m, PassesOver v s k) :
    ∃ r t, (allocateLoop v n (s.startSearchCluster + m)).run u = .ok r t ∧
      (r = 0 ∧ (∀ k < m + n, PassesOver v s k) ∧ t.data = s.data ∧
          t.startSearchCluster = s.startSearchCluster ∨
        ∃ k, r = s.startSearchCluster + k ∧ Takes v s t k) := by
  -- induction on the clusters that are left, with the accesses made so far as the state
  induction n generalizing m u with
  | zero => exact ⟨0, u, rfl, Or.inl ⟨rfl, hpassed, hview.data, hcursor⟩⟩
  | succ n ih =>
    have hin : InTable v (s.startSearchCluster + m) := ⟨by omega, by omega⟩
    obtain ⟨u', hread, hview', htrace', hcursor'⟩ := readTable_fallible hin u
    have hviews := hview.trans hview'
    have htraces : u'.trace = searchEvents v s.startSearchCluster (m + 1) ++ s.trace := by
      rw [htrace', htrace]
      rfl
    rw [htrace, hview.tableEntry_eq] at hread
    rw [allocateLoop, bind_of_ok hread]
    by_cases hpass : PassesOver v s m
    · have hused : tableEntry v s (s.startSearchCluster + m) ≠ clusterFree := hpass.2
      rw [if_pos hpass.1, if_neg hused]
      have hpassed' (k : ℕ) (hk : k < m + 1) : PassesOver v s k := by
        obtain hk | rfl := Nat.lt_succ_iff_lt_or_eq.mp hk
        · exact hpassed k hk
        · exact hpass
      obtain ⟨r, t, hrun, hresult⟩ := ih (by omega) hviews (hcursor'.trans hcursor)
        htraces hpassed'
      refine ⟨r, t, hrun, ?_⟩
      rw [Nat.add_right_comm] at hresult
      exact hresult
    · have hfree : (if v.readStatus (searchEvents v s.startSearchCluster m ++ s.trace)
          (tableSector v (s.startSearchCluster + m)) = 0 then tableEntry v s (s.startSearchCluster + m)
          else 0) = clusterFree := by
        by_cases hstatus : v.readStatus (searchEvents v s.startSearchCluster m ++ s.trace)
            (tableSector v (s.startSearchCluster + m)) = 0
        · rw [if_pos hstatus]
          exact not_not.mp fun hne => hpass ⟨hstatus, hne⟩
        · exact if_neg hstatus
      rw [if_pos hfree]
      obtain ⟨t, hrun, htakes⟩ := takes_of_stops ⟨by omega, hpassed, hpass⟩ hstart hviews htraces
      exact ⟨_, t, hrun, Or.inr ⟨m, rfl, htakes⟩⟩

/-- `AllocateCluster` with a start of the search that is a cluster. -/
theorem allocateCluster_search (hstart : 2 ≤ s.startSearchCluster) :
    ∃ r t, (allocateCluster v).run s = .ok r t ∧
      (r = 0 ∧ (∀ k, s.startSearchCluster + k < v.totalClusters → PassesOver v s k) ∧
          t.data = s.data ∧ t.startSearchCluster = s.startSearchCluster ∨
        ∃ k, r = s.startSearchCluster + k ∧ Takes v s t k) := by
  obtain ⟨r, t, hrun, hresult⟩ : ∃ r t,
      (allocateLoop v (v.totalClusters - s.startSearchCluster) s.startSearchCluster).run s = .ok r t ∧
      (r = 0 ∧ (∀ k, s.startSearchCluster + k < v.totalClusters → PassesOver v s k) ∧
          t.data = s.data ∧ t.startSearchCluster = s.startSearchCluster ∨
        ∃ k, r = s.startSearchCluster + k ∧ Takes v s t k) := by
    by_cases hlt : s.startSearchCluster < v.totalClusters
    · obtain ⟨r, t, hrun, hresult⟩ := @allocateLoop_search v s s hstart 0
        (v.totalClusters - s.startSearchCluster) (by omega) ⟨rfl, fun _ _ => rfl⟩ rfl rfl (by simp)
      refine ⟨r, t, hrun, hresult.imp_left fun h => ⟨h.1, fun k hk => ?_, h.2.2⟩⟩
      exact h.2.1 k (by omega)
    · rw [Nat.sub_eq_zero_of_le (Nat.not_lt.mp hlt)]
      exact ⟨0, s, rfl, Or.inl ⟨rfl, fun k hk => by omega, rfl, rfl⟩⟩
  refine ⟨r, { t with trace := .allocated r :: t.trace }, ?_, ?_⟩
  · rw [allocateCluster, bind_look, bind_of_ok hrun]
    rfl
  · refine hresult.imp_right ?_
    rintro ⟨k, hr, htakes⟩
    refine ⟨k, hr, htakes.stops, htakes.start, ?_, htakes.data⟩
    obtain ⟨new, htrace, hsucceed⟩ := htakes.trace
    exact ⟨.allocated r :: new, congrArg (Event.allocated r :: ·) htrace,
      ⟨fun h => hsucceed.mp h.2, fun h => ⟨trivial, hsucceed.mpr h⟩⟩⟩

/-- A start of 0 or 1 is taken for a free cluster as it is. -/
theorem allocateCluster_low (hstart : s.startSearchCluster < 2) :
    (allocateCluster v).run s =
      .ok (if s.startSearchCluster < v.totalClusters then s.startSearchCluster else 0)
        { s with
          trace := .allocated (if s.startSearchCluster < v.totalClusters then s.startSearchCluster
            else 0) :: s.trace } := by
  have hout : s.startSearchCluster < 2 ∨ v.totalClusters < s.startSearchCluster := Or.inl hstart
  rw [allocateCluster, bind_look]
  split
  · next hlt =>
    obtain ⟨n, hn⟩ := Nat.exists_eq_add_of_lt hlt
    have hsteps : v.totalClusters - s.startSearchCluster = n + 1 := by omega
    rw [hsteps, allocateLoop, readTable, if_pos hout, writeTable, if_pos hout]
    rfl
  · next hge =>
    rw [Nat.sub_eq_zero_of_le (Nat.not_lt.mp hge)]
    rfl

end Search

/-! ## Soundness -/

/-- A cluster that `AllocateCluster` returns belongs to the data region and was free on the disk. If
all accesses succeeded, it ends a chain now and no other entry changed. -/
def SoundCall (v : Volume) (s : State) : Prop :=
  ∀ c t, (allocateCluster v).run s = .ok c t → c ≠ 0 →
    IsCluster v c ∧ diskEntry v s c = 0 ∧
      (Succeed v s.trace (eventsSince s t) →
        v.clusterEnd ≤ diskEntry v t c ∧
          ∀ c', IsCluster v c' → c' ≠ c → diskEntry v t c' = diskEntry v s c')

/-- The entries that the search can come to are placed. -/
def EntriesPlaced (v : Volume) (s : State) : Prop :=
  ∀ c, 2 ≤ c → s.startSearchCluster ≤ c → c < v.totalClusters → Placed v c

/-- The search can read the table up to the first cluster that is free on the disk. -/
def ReadsUpToFree (v : Volume) (s : State) : Prop :=
  ∀ n, s.startSearchCluster + n < v.totalClusters →
    (∀ m ≤ n, diskEntry v s (s.startSearchCluster + m) ≠ 0) →
    v.readStatus (searchEvents v s.startSearchCluster n ++ s.trace)
      (tableSector v (s.startSearchCluster + n)) = 0

section Sound

/-- The last byte of an entry that is not placed is not written by a store. -/
theorem Booted.last_byte_kept (hboot : Booted v) (hplaced : ¬ Placed v cluster)
    (ht : t.data = (s.afterStore v cluster value).data) :
    tableBytes v t (entryOffset v cluster + (entrySize v - 1)) =
      tableBytes v s (entryOffset v cluster + (entrySize v - 1)) := by
  have hstart := hboot.startLBA_lt
  have hpos := v.bytesPerSector_pos
  have hbytes := v.bytesPerSector_lt
  let last := entryOffset v cluster + (entrySize v - 1)
  change tableBytes v t last = tableBytes v s last
  rw [tableBytes, tableBytes, ht]
  by_cases haddress : v.startLBA + (v.firstFatSector + last / v.bytesPerSector) = tableSector v cluster
  · by_cases hblock : last % v.bytesPerSector < v.blockSize
    · exfalso
      apply hplaced
      -- the sector is the one that holds the last byte, so nothing wrapped
      have hoffset : fatOffset v cluster = entryOffset v cluster % 2 ^ 32 := by
        rw [fatOffset, entryOffset]
        cases v.fatType with
        | FAT12 => rfl
        | FAT16 => exact congrArg wrap32 (Nat.mul_comm ..)
        | FAT32 => exact congrArg wrap32 (Nat.mul_comm ..)
      have hsector : tableSector v cluster = v.startLBA + fatSector v cluster := by
        have hlt : fatSector v cluster < 2 ^ 32 := Nat.mod_lt _ (Nat.two_pow_pos 32)
        rw [tableSector, lba, wrap64_of_lt (by omega), Nat.add_zero]
      have hwrap : fatSector v cluster ≤
          v.firstFatSector + fatOffset v cluster / v.bytesPerSector := Nat.mod_le _ _
      have hle : fatOffset v cluster ≤ entryOffset v cluster := hoffset ▸ Nat.mod_le _ _
      have hdiv : fatOffset v cluster / v.bytesPerSector ≤ entryOffset v cluster / v.bytesPerSector :=
        Nat.div_le_div_right hle
      have hdiv' : entryOffset v cluster / v.bytesPerSector ≤ last / v.bytesPerSector :=
        Nat.div_le_div_right (Nat.le_add_right ..)
      have hsame : last / v.bytesPerSector = entryOffset v cluster / v.bytesPerSector := by omega
      have hsame' : fatOffset v cluster / v.bytesPerSector =
          entryOffset v cluster / v.bytesPerSector := by omega
      have hlast := Nat.div_add_mod last v.bytesPerSector
      have hentry := Nat.div_add_mod (entryOffset v cluster) v.bytesPerSector
      have hdriver := Nat.div_add_mod (fatOffset v cluster) v.bytesPerSector
      have hmod := Nat.mod_lt last hpos
      rw [hsame] at hlast
      rw [hsame'] at hdriver
      refine hboot.placed ?_ ?_ ?_
      · omega
      · omega
      · omega
    · rw [haddress]
      have hself : (s.afterStore v cluster value).data (tableSector v cluster) =
          (s.data (tableSector v cluster)).blit 0
            (storeTableValue v cluster value (blockAt v s (tableSector v cluster))) v.blockSize :=
        Function.update_self ..
      rw [hself, Bytes.blit_of_not_mem (by omega)]
  · exact congrFun (Function.update_of_ne haddress _ _) _

/-- An entry whose last byte is kept from a free entry is no end of a chain. -/
theorem decodeEntry_lt_clusterEnd {b b' : Bytes} {o : ℕ} (hfree : decodeEntry v cluster b o = 0)
    (hlast : b' (o + (entrySize v - 1)) = b (o + (entrySize v - 1))) :
    decodeEntry v cluster b' o < v.clusterEnd := by
  rw [decodeEntry] at hfree ⊢
  rw [entrySize] at hlast
  rw [Geometry.clusterEnd]
  have hlow (x : ℕ) : x &&& 0x0FFF = x % 2 ^ 12 := Nat.and_two_pow_sub_one_eq_mod x 12
  have hhigh (x : ℕ) : x >>> 4 = x / 2 ^ 4 := Nat.shiftRight_eq_div_pow x 4
  have hbyte (c : Bytes) (i : ℕ) : (c i).toNat < 2 ^ 8 := (c i).toNat_lt
  have h₀ := hbyte b o
  have h₁ := hbyte b (o + 1)
  have h₂ := hbyte b (o + 2)
  have h₀' := hbyte b' o
  have h₁' := hbyte b' (o + 1)
  have h₂' := hbyte b' (o + 2)
  cases htype : v.fatType with
  | FAT32 =>
    simp only [htype, if_true, Nat.reduceSub] at hfree hlast ⊢
    simp only [Bytes.u32, Bytes.u16, Nat.add_assoc, Nat.reduceAdd, hlast] at hfree ⊢
    omega
  | FAT16 =>
    simp only [htype, reduceCtorEq, if_false, Nat.reduceSub, Bytes.u16] at hfree hlast ⊢
    rw [hlast]
    omega
  | FAT12 =>
    simp only [htype, reduceCtorEq, if_false, Nat.reduceSub, hlow, hhigh, Bytes.u16] at hfree hlast ⊢
    rw [hlast]
    split at hfree
    · next hodd =>
      rw [if_pos hodd]
      omega
    · next heven =>
      rw [if_neg heven]
      omega

/-- The entry at which a search ends gets marked only if it is placed. -/
theorem Booted.placed_of_marked (hboot : Booted v) (hfree : diskEntry v s cluster = 0)
    (ht : t.data = (s.afterStore v cluster value).data) (hend : v.clusterEnd ≤ diskEntry v t cluster) :
    Placed v cluster := by
  by_contra hplaced
  exact absurd hend (Nat.not_le.mpr
    (decodeEntry_lt_clusterEnd hfree (hboot.last_byte_kept hplaced ht)))

/-- What `SoundCall` says about a call that takes a cluster. -/
theorem soundCall_iff_of_takes (hboot : Booted v) (hstart : 2 ≤ s.startSearchCluster) {n : ℕ}
    (htakes : Takes v s t n)
    (hrun : (allocateCluster v).run s = .ok (s.startSearchCluster + n) t) :
    SoundCall v s ↔ diskEntry v s (s.startSearchCluster + n) = 0 ∧
      (Completes v s n → Placed v (s.startSearchCluster + n)) := by
  obtain ⟨new, htrace, hsucceed⟩ := htakes.trace
  have hlt := htakes.stops.lt
  constructor
  · intro hsound
    obtain ⟨-, hfree, hmark⟩ := hsound _ t hrun (by omega)
    refine ⟨hfree, fun hcomplete => ?_⟩
    rw [eventsSince_eq htrace, hsucceed] at hmark
    exact hboot.placed_of_marked hfree (htakes.data hcomplete) (hmark hcomplete).1
  · rintro ⟨hfree, hplaced⟩ c t' hrun' -
    cases hrun.symm.trans hrun'
    refine ⟨⟨by omega, by omega⟩, hfree, fun hall => ?_⟩
    rw [eventsSince_eq htrace, hsucceed] at hall
    have hentry := (hplaced hall).diskEntry_store v.clusterEnd (htakes.data hall)
    rw [entryValue_of_le (le_refl _)] at hentry
    rw [hentry]
    exact ⟨by rw [Function.update_self], fun c' _ hne => Function.update_of_ne hne _ _⟩

/-- A search ends once. -/
theorem Stops.unique {n m : ℕ} (h : Stops v s n) (h' : Stops v s m) : n = m := by
  obtain hlt | heq | hlt := Nat.lt_trichotomy n m
  · exact absurd (h'.passed n hlt) h.here
  · exact heq
  · exact absurd (h.passed m hlt) h'.here

/-- What `SoundCall` says when the search starts in front of the first cluster. -/
theorem soundCall_iff_of_low (hstart : s.startSearchCluster < 2) :
    SoundCall v s ↔ (s.startSearchCluster = 1 → v.totalClusters ≤ 1) := by
  have hrun := allocateCluster_low (v := v) hstart
  constructor
  · intro hsound hone
    by_contra hlt
    rw [hone, if_pos (Nat.not_le.mp hlt)] at hrun
    obtain ⟨⟨hlow, -⟩, -⟩ := hsound 1 _ hrun Nat.one_ne_zero
    omega
  · intro hone c t hrun' hne
    cases hrun.symm.trans hrun'
    split at hne
    · next hlt =>
      omega
    · exact absurd rfl hne

end Sound

/-- A placed cluster is passed over just when its sector can be read and it is in use. -/
theorem EntriesPlaced.passesOver_iff (h : EntriesPlaced v s) (hstart : 2 ≤ s.startSearchCluster) {n : ℕ}
    (hlt : s.startSearchCluster + n < v.totalClusters) :
    PassesOver v s n ↔
      v.readStatus (searchEvents v s.startSearchCluster n ++ s.trace)
          (tableSector v (s.startSearchCluster + n)) = 0 ∧
        diskEntry v s (s.startSearchCluster + n) ≠ 0 := by
  have hplaced := h (s.startSearchCluster + n) (by omega) (Nat.le_add_right ..) hlt
  rw [PassesOver, hplaced.tableEntry_eq s (by omega) hlt.le]

/-- The search ends at free clusters only if it can read the table up to them. -/
theorem EntriesPlaced.readsUpToFree_iff (h : EntriesPlaced v s) (hstart : 2 ≤ s.startSearchCluster) :
    ReadsUpToFree v s ↔ ∀ n, Stops v s n → diskEntry v s (s.startSearchCluster + n) = 0 := by
  constructor
  · intro hreads n hstops
    by_contra hused
    refine hstops.here ((h.passesOver_iff hstart hstops.lt).mpr ⟨hreads n hstops.lt fun m hm => ?_, hused⟩)
    rcases Nat.eq_or_lt_of_le hm with rfl | hm
    · exact hused
    · have hlt := hstops.lt
      exact ((h.passesOver_iff hstart (by omega)).mp (hstops.passed m hm)).2
  · intro hfree n
    -- induction on the clusters in front, which the search passes over
    induction n using Nat.strong_induction_on with
    | _ n ih =>
      intro hlt hused
      by_contra hfails
      have hstops : Stops v s n :=
        { lt := hlt
          passed := fun m hm => (h.passesOver_iff hstart (by omega)).mpr
            ⟨ih m hm (by omega) fun k hk => hused k (by omega), hused m hm.le⟩
          here := fun hpass => hfails hpass.1 }
      exact hused n le_rfl (hfree n hstops)

section Mounted

variable {d : Device} {start_lba : UInt32} {stack heap : Bytes} {s₀ s₁ : State}

end Mounted

/-- A device that cannot read the sector with number 1. -/
def brokenDevice : Device := { steadyDevice with readStatus := fun _ a => if a = 1 then 1 else 0 }

/-- The FAT16 volume with the marks of the first two entries, and a file in cluster 2. -/
def brokenDisk : State := mounted (diskImage [(0, fat16Boot), (1, [0xF8, 0xFF, 0xFF, 0xFF, 0xF8, 0xFF])])

/-- The sample volume with a broken table sector hands out cluster 2. -/
theorem broken_mounts : ∃ v s₁ t,
    (fatInitialize brokenDevice 0 (fun _ => 0) fun _ => 0).run brokenDisk = .ok (some v) s₁ ∧
      (allocateCluster v).run s₁ = .ok 2 t ∧ diskEntry v s₁ 2 = 0xFFF8 :=
  ⟨_, _, _, rfl, rfl, rfl⟩

/-- `AllocateCluster` returns 0 only if no cluster of the data region is free on the disk. -/
def CompleteCall (v : Volume) (s : State) : Prop :=
  ∀ t, (allocateCluster v).run s = .ok 0 t → ∀ k, IsCluster v k → diskEntry v s k ≠ 0

/-- If a cluster is free, then the search starts at a number other than 0, and meets an entry that
reads as 0 in front of the last cluster numbers. -/
def SearchesCompletely (v : Volume) (s : State) : Prop :=
  (∃ k, IsCluster v k ∧ diskEntry v s k = 0) →
    s.startSearchCluster ≠ 0 ∧
      ∃ k, s.startSearchCluster ≤ k ∧ k < v.totalClusters ∧ tableEntry v s k = 0

/-- A sequence of calls of `AllocateCluster`. -/
def EachAllocation (v : Volume) (P : State → Prop) (calls : List Unit) (s : State) : Prop :=
  EachCall (fun _ => allocateCluster v) (fun _ _ _ => ()) (fun _ s _ => P s) calls () s

/-- Every cluster that is free lies where the search comes along, or the search takes the number 1
again and again. -/
def AllInReach (v : Volume) (s : State) : Prop :=
  s.startSearchCluster = 1 ∧ 1 < v.totalClusters ∨
    ∀ k, IsCluster v k → diskEntry v s k = 0 →
      s.startSearchCluster ≠ 0 ∧ s.startSearchCluster ≤ k ∧ k < v.totalClusters

section Complete

variable (hdev : v.AlwaysSucceeds)
include hdev

/-- On a disk that answers, the search ends at an entry that reads as 0. -/
theorem Stops.tableEntry_eq {n : ℕ} (h : Stops v s n) :
    tableEntry v s (s.startSearchCluster + n) = 0 :=
  not_not.mp fun hne => h.here ⟨hdev.1 _ _, hne⟩

/-- When `AllocateCluster` gives up. -/
theorem allocateCluster_zero_iff (s : State) :
    ∃ r t, (allocateCluster v).run s = .ok r t ∧
      (r ≠ 0 ↔ s.startSearchCluster ≠ 0 ∧
        ∃ k, s.startSearchCluster ≤ k ∧ k < v.totalClusters ∧ tableEntry v s k = 0) := by
  by_cases hstart : 2 ≤ s.startSearchCluster
  · obtain ⟨r, t, hrun, ⟨rfl, hpassed, -⟩ | ⟨n, rfl, htakes⟩⟩ := allocateCluster_search hstart
    · refine ⟨0, t, hrun, iff_of_false (fun h => h rfl) ?_⟩
      rintro ⟨-, k, hlow, hhigh, hfree⟩
      obtain ⟨n, rfl⟩ := Nat.exists_eq_add_of_le hlow
      exact (hpassed n hhigh).2 hfree
    · refine ⟨_, t, hrun, iff_of_true (by omega) ⟨by omega, _, Nat.le_add_right .., htakes.stops.lt, ?_⟩⟩
      exact htakes.stops.tableEntry_eq hdev
  · refine ⟨_, _, allocateCluster_low (Nat.not_le.mp hstart), ?_⟩
    constructor
    · intro hne
      split at hne
      · next hlt =>
        exact ⟨hne, s.startSearchCluster, le_refl _, hlt, if_pos (Or.inl (Nat.not_le.mp hstart))⟩
      · exact absurd rfl hne
    · rintro ⟨hne, k, hlow, hhigh, -⟩
      rw [if_pos (hlow.trans_lt hhigh)]
      exact hne

/-- A call finds a free cluster just when the search comes to one. -/
theorem completeCall_iff (s : State) : CompleteCall v s ↔ SearchesCompletely v s := by
  obtain ⟨r, t, hrun, hr⟩ := allocateCluster_zero_iff hdev s
  rw [SearchesCompletely, ← hr]
  constructor
  · rintro hcomplete ⟨k, hk, hfree⟩ rfl
    exact hcomplete t hrun k hk hfree
  · intro hne t' hrun' k hk hfree
    cases hrun.symm.trans hrun'
    exact hne ⟨k, hk, hfree⟩ rfl

/-- One call on a volume with placed entries, from a start of the search that is a cluster. -/
theorem allocateCluster_placed (hplaced : ∀ c, InTable v c → Placed v c)
    (hstart : 2 ≤ s.startSearchCluster) :
    ∃ r t, (allocateCluster v).run s = .ok r t ∧
      (r = 0 ∧ t.data = s.data ∧ t.startSearchCluster = s.startSearchCluster ∧
          (∀ k, s.startSearchCluster ≤ k → k < v.totalClusters → diskEntry v s k ≠ 0) ∨
        s.startSearchCluster ≤ r ∧ r < v.totalClusters ∧ t.startSearchCluster = r ∧
          diskEntry v s r = 0 ∧ (∀ k, s.startSearchCluster ≤ k → k < r → diskEntry v s k ≠ 0) ∧
          diskEntry v t = Function.update (diskEntry v s) r v.clusterEnd) := by
  have hentry (k : ℕ) (hlow : s.startSearchCluster ≤ k) (hhigh : k < v.totalClusters) :
      tableEntry v s k = diskEntry v s k :=
    (hplaced k ⟨by omega, hhigh.le⟩).tableEntry_eq s (by omega) hhigh.le
  obtain ⟨r, t, hrun, ⟨rfl, hpassed, hdata, hcursor⟩ | ⟨n, rfl, htakes⟩⟩ :=
    allocateCluster_search hstart
  · refine ⟨0, t, hrun, Or.inl ⟨rfl, hdata, hcursor, fun k hlow hhigh => ?_⟩⟩
    obtain ⟨n, rfl⟩ := Nat.exists_eq_add_of_le hlow
    rw [← hentry _ hlow hhigh]
    exact (hpassed n hhigh).2
  · have hlt := htakes.stops.lt
    have hcomplete : Completes v s n := by
      have hall (new : List Event) : Succeed v s.trace new := by
        induction new with
        | nil => trivial
        | cons e new ih =>
          refine ⟨?_, ih⟩
          cases e with
          | readSector a => exact hdev.1 _ _
          | writeSector a => exact hdev.2 _ _
          | _ => trivial
      exact hall _
    have hstore := (hplaced _ ⟨by omega, hlt.le⟩).diskEntry_store v.clusterEnd (htakes.data hcomplete)
    rw [entryValue_of_le (le_refl _)] at hstore
    refine ⟨_, t, hrun, Or.inr ⟨Nat.le_add_right .., hlt, htakes.start, ?_, ?_, hstore⟩⟩
    · rw [← hentry _ (Nat.le_add_right ..) hlt]
      exact htakes.stops.tableEntry_eq hdev
    · intro k hlow hhigh
      obtain ⟨m, rfl⟩ := Nat.exists_eq_add_of_le hlow
      rw [← hentry _ hlow (hhigh.trans hlt)]
      exact (htakes.stops.passed m (by omega)).2

omit hdev in
/-- The entries of the table depend on the disk. -/
theorem diskEntry_congr (hdata : t.data = s.data) : diskEntry v t = diskEntry v s := by
  have hbytes : tableBytes v t = tableBytes v s := by
    funext b
    rw [tableBytes, tableBytes, hdata]
  funext k
  rw [diskEntry_eq, diskEntry_eq, hbytes]

omit hdev in
/-- The first call, and those behind it. -/
theorem eachAllocation_cons {P : State → Prop} {r : ℕ} (hrun : (allocateCluster v).run s = .ok r t)
    (calls : List Unit) :
    EachAllocation v P (() :: calls) s ↔ P s ∧ EachAllocation v P calls t := by
  rw [EachAllocation, EachCall, hrun]
  rfl

omit hdev in
/-- An end mark is not zero. -/
theorem clusterEnd_ne_zero (v : Volume) : v.clusterEnd ≠ 0 := by
  rw [Geometry.clusterEnd]
  cases v.fatType <;> decide

section

variable (hplaced : ∀ c, InTable v c → Placed v c) (h : AllInReach v s)
include hplaced h

/-- A volume all of whose free clusters are in reach stays so. -/
theorem AllInReach.kept {r : ℕ} (hrun : (allocateCluster v).run s = .ok r t) : AllInReach v t := by
  by_cases hstart : 2 ≤ s.startSearchCluster
  · have hreach : ∀ k, IsCluster v k → diskEntry v s k = 0 →
        s.startSearchCluster ≠ 0 ∧ s.startSearchCluster ≤ k ∧ k < v.totalClusters :=
      h.resolve_left fun hone => by omega
    obtain ⟨r', t', hrun', hresult⟩ := allocateCluster_placed hdev hplaced hstart
    cases hrun.symm.trans hrun'
    obtain ⟨-, hdata, hcursor, -⟩ | ⟨hlow, -, hcursor, -, hfirst, hstore⟩ := hresult
    · rw [AllInReach, hcursor, diskEntry_congr hdata]
      exact h
    · -- the clusters that are free now were free before, and lie behind the one that was taken
      refine Or.inr fun k hk hfree => ?_
      rw [hstore] at hfree
      have hne : k ≠ r := fun heq => by
        rw [heq, Function.update_self] at hfree
        exact clusterEnd_ne_zero v hfree
      rw [Function.update_of_ne hne] at hfree
      obtain ⟨-, hle, hlt⟩ := hreach k hk hfree
      have hnot : ¬ k < r := fun hkr => hfirst k hle hkr hfree
      omega
  · rw [allocateCluster_low (Nat.not_le.mp hstart)] at hrun
    cases hrun
    exact h

/-- A call finds a free cluster while all free ones are in reach. -/
theorem AllInReach.completeCall :
    CompleteCall v s := by
  rw [completeCall_iff hdev]
  rintro ⟨k, hk, hfree⟩
  obtain ⟨hone, hlt⟩ | hreach := h
  · exact ⟨by omega, 1, hone.le, hlt, if_pos (Or.inl Nat.one_lt_two)⟩
  · obtain ⟨hne, hlow, hhigh⟩ := hreach k hk hfree
    refine ⟨hne, k, hlow, hhigh, ?_⟩
    rw [(hplaced k ⟨hk.1, hhigh.le⟩).tableEntry_eq s hk.1 hhigh.le]
    exact hfree

end

/-- The clusters in reach that are free. -/
def freeInReach (v : Volume) (s : State) : Finset ℕ :=
  (Finset.Ico s.startSearchCluster v.totalClusters).filter fun k => diskEntry v s k = 0

/-- Calls that never give up too early use up the clusters in reach, so there is no other one. -/
theorem allInReach_of_complete (hplaced : ∀ c, InTable v c → Placed v c)
    (hcomplete : ∀ calls, EachAllocation v (CompleteCall v) calls s) : AllInReach v s := by
  -- induction on the number of free clusters in reach, which each call makes smaller
  induction hcard : (freeInReach v s).card using Nat.strong_induction_on generalizing s with
  | _ n ih =>
    by_contra hout
    obtain ⟨hnotone, hnotall⟩ := not_or.mp hout
    push Not at hnotall
    obtain ⟨k, hk, hfree, hfar⟩ := hnotall
    obtain ⟨r, t, hrun, hr⟩ := allocateCluster_zero_iff hdev s
    have hnext (calls : List Unit) := (eachAllocation_cons hrun calls).mp (hcomplete (() :: calls))
    have hne : r ≠ 0 := fun hzero => (hnext []).1 t (hzero ▸ hrun) k hk hfree
    obtain ⟨hstart, j, hlow, hhigh, -⟩ := hr.mp hne
    have htwo : 2 ≤ s.startSearchCluster := by
      by_contra hlt
      exact hnotone ⟨by omega, by omega⟩
    obtain ⟨r', t', hrun', hresult⟩ := allocateCluster_placed hdev hplaced htwo
    cases hrun.symm.trans hrun'
    obtain ⟨hzero, -⟩ | ⟨hle, hlt, hcursor, hfree', -, hstore⟩ := hresult
    · exact hne hzero
    · have hkr : k ≠ r := fun heq => absurd hlt (Nat.not_lt.mpr (heq ▸ hfar hstart (heq ▸ hle)))
      have hfreet : diskEntry v t k = 0 := by rw [hstore, Function.update_of_ne hkr, hfree]
      have hless : freeInReach v t ⊂ freeInReach v s := by
        refine Finset.ssubset_iff_of_subset (fun j hj => ?_) |>.mpr ⟨r, ?_, ?_⟩
        · obtain ⟨hrange, hzero⟩ := Finset.mem_filter.mp hj
          obtain ⟨hlow', hhigh'⟩ := Finset.mem_Ico.mp hrange
          have hjr : j ≠ r := fun heq => by
            rw [heq, hstore, Function.update_self] at hzero
            exact clusterEnd_ne_zero v hzero
          rw [hstore, Function.update_of_ne hjr] at hzero
          exact Finset.mem_filter.mpr ⟨Finset.mem_Ico.mpr ⟨by omega, hhigh'⟩, hzero⟩
        · exact Finset.mem_filter.mpr ⟨Finset.mem_Ico.mpr ⟨hle, hlt⟩, hfree'⟩
        · intro hmem
          have hzero := (Finset.mem_filter.mp hmem).2
          rw [hstore, Function.update_self] at hzero
          exact clusterEnd_ne_zero v hzero
      have hreach := ih _ (hcard ▸ Finset.card_lt_card hless) (fun calls => (hnext calls).2) rfl
      obtain ⟨hone, -⟩ | hall := hreach
      · omega
      · obtain ⟨-, hle', hlt'⟩ := hall k hk hfreet
        exact absurd hlt' (Nat.not_lt.mpr (hfar hstart (by omega)))

end Complete

/-- On a disk that answers, from every state and over every sequence of calls: `AllocateCluster`
gives up on full volumes only just when each call finds a cluster unless the volume is full. With
placed entries, this holds for all sequences just when every free cluster is in reach at the start. -/
theorem allocateCluster_complete_iff (hdev : v.AlwaysSucceeds) :
    (∀ s calls, EachAllocation v (CompleteCall v) calls s ↔
        EachAllocation v (SearchesCompletely v) calls s) ∧
      ((∀ c, InTable v c → Placed v c) →
        ∀ s, (∀ calls, EachAllocation v (CompleteCall v) calls s) ↔ AllInReach v s) := by
  constructor
  · intro s calls
    exact EachCall.congr_of_invariant (I := fun _ _ => True)
      (fun _ s _ _ => completeCall_iff hdev s) (fun _ _ _ _ _ _ _ _ => trivial) trivial calls
  · intro hplaced s
    refine ⟨allInReach_of_complete hdev hplaced, fun hreach calls => ?_⟩
    refine EachCall.of_admissible (I := fun _ s => AllInReach v s) ?_ ?_ hreach
      (EachCall.of_forall (fun _ _ _ => trivial) calls () s)
    · exact fun _ s _ h _ => h.completeCall hdev hplaced
    · exact fun _ s _ r t h _ hrun => h.kept hdev hplaced hrun

/-- The equivalence on the sample volume. -/
theorem allocateCluster_complete_fat12 : ∃ v, Mounts fat12Boot v ∧
    ∀ s, (∀ calls, EachAllocation v (CompleteCall v) calls s) ↔ AllInReach v s := by
  obtain ⟨v, hv, htype, hclusters⟩ := fat12_mounts
  refine ⟨v, hv, ?_⟩
  obtain ⟨hdev, hsector, hblock, t, hmount⟩ := hv
  refine (allocateCluster_complete_iff hdev).2 fun c hc => ?_
  refine (fatInitialize_eq_ok hmount).1.placed_packed htype hsector hblock ?_
  have hle := hc.2
  omega

/-- A FAT32 volume that names no sector for `fsInfo` is searched from 0. -/
theorem fat32_search : ∃ v s₁ t,
    (fatInitialize steadyDevice 0 (fun _ => 0) fun _ => 0).run
        (mounted (diskImage [(0, fat32Boot)])) = .ok (some v) s₁ ∧
      v.AlwaysSucceeds ∧ v.totalClusters = 2130706400 ∧ (allocateCluster v).run s₁ = .ok 0 t ∧
      diskEntry v s₁ 2 = 0 :=
  ⟨_, _, _, rfl, ⟨fun _ _ => rfl, fun _ _ => rfl⟩, rfl, rfl, rfl⟩

/-- On such a volume the first call gives up although all clusters are free. -/
theorem not_allocateCluster_complete :
    ¬ ∀ (d : Device) (start_lba : UInt32) (stack heap : Bytes) (s₀ s₁ : State) (v : Volume),
      (fatInitialize d start_lba stack heap).run s₀ = .ok (some v) s₁ → v.AlwaysSucceeds →
      ∀ calls, EachAllocation v (CompleteCall v) calls s₁ := by
  intro hclaim
  obtain ⟨v, s₁, t, hmount, hdev, hclusters, hrun, hfree⟩ := fat32_search
  have hcomplete := (hclaim _ _ _ _ _ s₁ v hmount hdev [()]).1
  exact hcomplete t hrun 2 ⟨le_refl 2, by omega⟩ hfree

end Vsos.Fat
