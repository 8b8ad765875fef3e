import Vsos.Fat.Growth
import Vsos.Lib.FirstRun

/-!
# The search for free slots

`FindEntryStartpoint` visits the slots of a directory in order and counts the free ones in a
row. In a chain of clusters it stops at the first run that is long enough; a directory without
such a run grows by cleared clusters, whose slots continue a run at its end. The slots are
numbered from the start of the directory, and every slot behind its last cluster counts as free.
-/

namespace Vsos.Fat

open Vsos.Lib

variable {v : Volume} {s t : State} {budget cluster fuel k last q sector : ℕ} {l : List ℕ}

/-- The number of slots in a cluster. -/
def Geometry.slotsPerCluster (g : Geometry) : ℕ := g.sectorsPerCluster * g.slotsPerSector

/-- Slot number `q` from the start of the sectors that a search looks at. -/
def slotTarget (v : Volume) (cluster q : ℕ) : Target :=
  ⟨cluster, q / v.slotsPerSector, 32 * (q % v.slotsPerSector)⟩

/-- Slot number `m` of a directory with these clusters. -/
def chainTarget (v : Volume) (l : List ℕ) (m : ℕ) : Target :=
  slotTarget v (l.getD (m / v.slotsPerCluster) 0) (m % v.slotsPerCluster)

/-- Slot number `m` of a directory is free; slots behind its last one are. -/
def FreeAt (v : Volume) (s : State) (ps : List Place) (m : ℕ) : Prop :=
  ∀ p, ps[m]? = some p → slotFree (slotOf v s p) = true

/-- What the search knows after `m` slots: the length of the last run of free slots and where it
started. -/
structure Tracks (p : ℕ → Prop) (target : ℕ → Target) (n m : ℕ) (st : Search) : Prop where
  seen : Seen p n m st.freeCount
  start : 0 < st.freeCount → st.target = target (m - st.freeCount)

/-- The search goes on behind slot `m`, or has found the first run there is. -/
def Outcome (p : ℕ → Prop) (target : ℕ → Target) (n m₀ m : ℕ) : Search ⊕ Target → Prop
  | .inl st => Tracks p target n m st
  | .inr found => ∃ r, FirstRun p n r ∧ m₀ < r + n ∧ r + n ≤ m ∧ found = target r

section Tracks

variable {p : ℕ → Prop} {target : ℕ → Target} {n m : ℕ} {st : Search}

/-- No slot has been seen. -/
theorem tracks_zero (hn : 0 < n) (start : Target) : Tracks p target n 0 ⟨0, start⟩ :=
  ⟨Seen.zero hn, fun h => absurd h (lt_irrefl 0)⟩

/-- A search that has seen `m` slots only depends on what lies in front of slot `m`. -/
theorem Tracks.congr {target' : ℕ → Target} (h : Tracks p target n m st)
    (heq : ∀ k < m, target' k = target k) : Tracks p target' n m st := by
  refine ⟨h.seen, fun hpos => ?_⟩
  have hle := h.seen.le
  rw [h.start hpos, heq _ (by omega)]

/-- One round of the search. -/
theorem Tracks.searchSlot (h : Tracks p target n m st) (hn : n < 2 ^ 32) {slot : Bytes}
    (hfree : slotFree slot = true ↔ p m) :
    Outcome p target n m (m + 1) (searchSlot slot (target m) n st) := by
  have hshort := h.seen.short
  have hle := h.seen.le
  unfold Fat.searchSlot
  by_cases hslot : slotFree slot = true
  · have hm := hfree.mp hslot
    have hwrap : wrap32 (st.freeCount + 1) = st.freeCount + 1 := wrap32_of_lt (by omega)
    have hstart : (if st.freeCount = 0 then target m else st.target) = target (m - st.freeCount) := by
      split
      · next hzero => rw [hzero, Nat.sub_zero]
      · next hne => exact h.start (Nat.pos_of_ne_zero hne)
    simp only [hslot, if_true, hwrap, hstart]
    split
    · next heq => exact ⟨_, h.seen.found hm heq, by omega, by omega, rfl⟩
    · next hne =>
      refine ⟨h.seen.hit hm hne, fun _ => ?_⟩
      rw [Nat.add_sub_add_right]
  · rw [if_neg hslot]
    exact ⟨h.seen.miss fun hm => hslot (hfree.mpr hm), fun hpos => absurd hpos (lt_irrefl 0)⟩

/-- The search over `k` slots in a row. -/
theorem Tracks.foldStop {b a : ℕ} (h : Tracks p target n (b + a) st) (hn : n < 2 ^ 32)
    {slot : ℕ → Bytes} {here : ℕ → Target}
    (hfree : ∀ q, a ≤ q → q < a + k → (slotFree (slot q) = true ↔ p (b + q)))
    (hhere : ∀ q, a ≤ q → q < a + k → here q = target (b + q)) :
    Outcome p target n (b + a) (b + a + k)
      (foldStop (fun q => Fat.searchSlot (slot q) (here q) n) (List.range' a k) st) := by
  induction k generalizing a st with
  | zero => exact h
  | succ k ih =>
    have hround := h.searchSlot hn (hfree a (le_refl a) (by omega))
    rw [List.range'_succ, Lib.foldStop, hhere a (le_refl a) (by omega)]
    cases hslot : Fat.searchSlot (slot a) (target (b + a)) n st with
    | inr found =>
      rw [hslot] at hround
      obtain ⟨r, hfirst, hlow, hhigh, heq⟩ := hround
      exact ⟨r, hfirst, hlow, by omega, heq⟩
    | inl st' =>
      rw [hslot] at hround
      have hrest := ih (a := a + 1) hround (fun q hq hq' => hfree q (by omega) (by omega))
        fun q hq hq' => hhere q (by omega) (by omega)
      dsimp only
      cases hfold : Lib.foldStop (fun q => Fat.searchSlot (slot q) (here q) n) (List.range' (a + 1) k)
          st' with
      | inl st'' =>
        rw [hfold] at hrest
        rw [show b + a + (k + 1) = b + (a + 1) + k by omega]
        exact hrest
      | inr found =>
        rw [hfold] at hrest
        obtain ⟨r, hfirst, hlow, hhigh, heq⟩ := hrest
        exact ⟨r, hfirst, by omega, by omega, heq⟩

end Tracks

/-- The block and the place in it of a position. -/
theorem block_div_mod {w : ℕ} (hq : q < w) : (k * w + q) / w = k ∧ (k * w + q) % w = q := by
  constructor
  · rw [Nat.mul_comm, Nat.mul_add_div (by omega), Nat.div_eq_of_lt hq, Nat.add_zero]
  · rw [Nat.mul_comm, Nat.mul_add_mod, Nat.mod_eq_of_lt hq]

/-- Slot number `q` from the start of the sectors at `sector`, as a buffered block shows it. -/
def windowSlot (v : Volume) (s : State) (sector q : ℕ) : Bytes :=
  slotAt (blockAt v s (lba v sector (q / v.slotsPerSector))) (32 * (q % v.slotsPerSector))

section Sectors

variable (hslots : v.slotsPerSector < 256) (hread : ∀ h a, v.readStatus h a = 0)
include hslots hread

/-- The search in consecutive sectors is a fold over their slots. -/
theorem searchSectors_fold (cluster n sector k i : ℕ) (hbudget : v.slotsPerSector < budget)
    (st : Search) (s : State) :
    ∃ t, (searchSectors v budget cluster sector n k i st).run s =
        .ok (Sum.map id some (foldStop (fun q => searchSlot (windowSlot v s sector q)
          (slotTarget v cluster q) n)
          (List.range' (i * v.slotsPerSector) (k * v.slotsPerSector)) st)) t ∧ Reads v s t := by
  induction k generalizing i st s with
  | zero => exact ⟨s, by simp [searchSectors, foldStop], Observes.refl v _ s⟩
  | succ k ih =>
    have hreads := reads_afterRead v s (lba v sector i)
    have hloop : loop8 (v.bytesPerSector / 32)
          (fun j => searchSlot (slotAt (blockAt v s (lba v sector i)) (32 * j)) ⟨cluster, i, 32 * j⟩ n)
          budget 0 st =
        some (foldStop (fun q => searchSlot (windowSlot v s sector q) (slotTarget v cluster q) n)
          (List.range' (i * v.slotsPerSector) v.slotsPerSector) st) := by
      change loop8 v.slotsPerSector _ budget 0 st = _
      rw [loop8_eq_foldStop hslots _ 0 budget (Nat.zero_add _) hbudget, ← List.range_eq_range',
        List.range'_eq_map_range, foldStop_map]
      congr 1
      apply foldStop_congr
      intro j hj st
      have hj := List.mem_range.mp hj
      rw [windowSlot, slotTarget, (block_div_mod hj).1, (block_div_mod hj).2]
    have hbuffer : getReadBuffer.run (s.afterRead v (lba v sector i)) =
        .ok (blockAt v s (lba v sector i)) (s.afterRead v (lba v sector i)) := rfl
    rw [searchSectors, bind_of_ok (readSector_run hread _ s), if_neg (by simp), bind_of_ok hbuffer]
    simp only [hloop]
    rw [range'_sector, foldStop_append]
    cases foldStop (fun q => searchSlot (windowSlot v s sector q) (slotTarget v cluster q) n)
        (List.range' (i * v.slotsPerSector) v.slotsPerSector) st with
    | inr found => exact ⟨_, rfl, hreads⟩
    | inl st' =>
      obtain ⟨t, hrun, hreads'⟩ := ih (i + 1) st' (s.afterRead v (lba v sector i))
      have hslot (q : ℕ) : windowSlot v (s.afterRead v (lba v sector i)) sector q =
          windowSlot v s sector q := by
        rw [windowSlot, windowSlot, hreads.blockAt_eq]
      simp only [hslot] at hrun
      exact ⟨t, hrun, hreads.trans hreads'⟩

/-- The same fold over the slots of the disk. -/
theorem searchSectors_run (hblock : v.blockSize = v.bytesPerSector) (hpos : 0 < v.slotsPerSector)
    (cluster n : ℕ) {i : ℕ} (haddress : ∀ j, i ≤ j → j < i + k → Addressable v (sector + j))
    (hbudget : v.slotsPerSector < budget) (st : Search) (s : State) :
    ∃ t, (searchSectors v budget cluster sector n k i st).run s =
        .ok (Sum.map id some (foldStop (fun q => searchSlot (slotOf v s (slotPlace v sector q))
          (slotTarget v cluster q) n)
          (List.range' (i * v.slotsPerSector) (k * v.slotsPerSector)) st)) t ∧ Reads v s t := by
  obtain ⟨t, hrun, hreads⟩ := searchSectors_fold hslots hread cluster n sector k i hbudget st s
  refine ⟨t, hrun.trans ?_, hreads⟩
  congr 2
  apply foldStop_congr
  intro q hq st
  have hq := List.mem_range'_1.mp hq
  have hlow : i ≤ q / v.slotsPerSector := (Nat.le_div_iff_mul_le hpos).mpr hq.1
  have hhigh : q / v.slotsPerSector < i + k := by
    rw [Nat.div_lt_iff_lt_mul hpos, Nat.add_mul]
    exact hq.2
  rw [windowSlot, lba_of_addressable (haddress _ hlow hhigh),
    slotAt_blockAt hblock s _ (Nat.mod_lt q hpos)]
  rfl

end Sectors

section Chain

/-- Slot number `m` of a chain of clusters. -/
theorem chainPlaces_getElem? (hpos : 0 < v.slotsPerSector) (l : List ℕ) (m : ℕ) :
    (chainPlaces v l)[m]? = (l[m / v.slotsPerCluster]?).map fun c =>
      slotPlace v (clusterSector v c 0) (m % v.slotsPerCluster) := by
  have hcluster : 0 < v.slotsPerCluster := Nat.mul_pos v.sectorsPerCluster_pos hpos
  have hmod := Nat.mod_lt m hcluster
  have hlength (c : ℕ) :
      (runPlaces v (clusterSector v c 0) 0 v.sectorsPerCluster).length = v.slotsPerCluster := by
    rw [runPlaces_eq_map hpos, List.length_map, List.length_range', Geometry.slotsPerCluster]
  rw [chainPlaces, getElem?_flatMap hcluster hlength]
  cases l[m / v.slotsPerCluster]? with
  | none => rfl
  | some c =>
    rw [Option.bind_some, runPlaces_eq_map hpos, List.getElem?_map, List.getElem?_range' (by exact hmod)]
    simp

/-- The slots of the grown directory start with those it had. -/
theorem chainPlaces_append (l ns : List ℕ) : chainPlaces v (l ++ ns) = chainPlaces v l ++ chainPlaces v ns :=
  List.flatMap_append

/-- The number of slots of a directory. -/
theorem length_chainPlaces (hpos : 0 < v.slotsPerSector) (l : List ℕ) :
    (chainPlaces v l).length = l.length * v.slotsPerCluster := by
  induction l with
  | nil => simp [chainPlaces]
  | cons c l ih =>
    rw [← List.singleton_append, chainPlaces_append, List.length_append, ih, List.length_append,
      Nat.add_mul, chainPlaces, List.flatMap_singleton, runPlaces_eq_map hpos, List.length_map,
      List.length_range', List.length_singleton, Nat.one_mul, Geometry.slotsPerCluster]

/-- The slots of a chain keep their numbers when it grows. -/
theorem chainTarget_append (ns : List ℕ) {m : ℕ} (hm : m < l.length * v.slotsPerCluster) :
    chainTarget v (l ++ ns) m = chainTarget v l m := by
  have hdiv : m / v.slotsPerCluster < l.length :=
    Nat.div_lt_of_lt_mul (by rwa [Nat.mul_comm])
  rw [chainTarget, chainTarget, List.getD_eq_getElem?_getD, List.getD_eq_getElem?_getD,
    List.getElem?_append_left hdiv]

/-- A slot of a cleared cluster is free. -/
theorem slotFree_of_cleared (hpos : 0 < v.slotsPerSector) {c : ℕ} (hq : q < v.slotsPerCluster)
    (h : ∀ a, ClusterRegion v c a → ∀ k < v.bytesPerSector, s.data a k = 0) :
    slotFree (slotOf v s (slotPlace v (clusterSector v c 0) q)) = true := by
  have hmod := Nat.mod_lt q hpos
  have hregion : ClusterRegion v c ((slotPlace v (clusterSector v c 0) q).address v) := by
    refine ⟨q / v.slotsPerSector, Nat.div_lt_of_lt_mul (by rwa [Nat.mul_comm]), ?_⟩
    simp only [Place.address, slotPlace, clusterSector, clusterAddress]
    omega
  have hoffset : (slotPlace v (clusterSector v c 0) q).offset < v.bytesPerSector := by
    change 32 * (q % v.slotsPerSector) < v.bytesPerSector
    unfold Geometry.slotsPerSector at hmod ⊢
    omega
  have hfirst : slotOf v s (slotPlace v (clusterSector v c 0) q) 0 = entryEnd := by
    exact h _ hregion _ hoffset
  simp [slotFree, hfirst]

/-- The search in a window that comes behind `k` others. -/
theorem Tracks.searchWindow {p : ℕ → Prop} {target : ℕ → Target} {n : ℕ} {st : Search}
    (h : Tracks p target n (k * v.slotsPerCluster) st) (hread : ∀ h a, v.readStatus h a = 0)
    (hslots : v.slotsPerSector < 256) (cluster sector : ℕ) (hn : n < 2 ^ 32)
    (hbudget : v.slotsPerSector < budget) (hfree : ∀ q < v.slotsPerCluster,
      (slotFree (windowSlot v s sector q) = true ↔ p (k * v.slotsPerCluster + q)))
    (htarget : ∀ q < v.slotsPerCluster, slotTarget v cluster q = target (k * v.slotsPerCluster + q)) :
    ∃ result t, (searchSectors v budget cluster sector n v.sectorsPerCluster 0 st).run s =
        .ok (Sum.map id some result) t ∧ Reads v s t ∧
      Outcome p target n (k * v.slotsPerCluster) ((k + 1) * v.slotsPerCluster) result := by
  obtain ⟨t, hrun, hreads⟩ := searchSectors_fold hslots hread cluster n sector v.sectorsPerCluster 0
    hbudget st s
  refine ⟨_, t, hrun, hreads, ?_⟩
  rw [Nat.succ_mul, Nat.zero_mul, ← Geometry.slotsPerCluster]
  exact Tracks.foldStop h hn
    (fun q _ hq => hfree q (by omega)) fun q _ hq => htarget q (by omega)

/-- On a well-formed volume the slots of a window are those of the disk. -/
theorem windowSlot_eq (hwf : v.WellFormed) (s : State)
    (haddress : ∀ j < v.sectorsPerCluster, Addressable v (sector + j))
    (hq : q < v.slotsPerCluster) : windowSlot v s sector q = slotOf v s (slotPlace v sector q) := by
  have hpos := hwf.slotsPerSector_pos
  have hdiv : q / v.slotsPerSector < v.sectorsPerCluster := (Nat.div_lt_iff_lt_mul hpos).mpr hq
  rw [windowSlot, lba_of_addressable (haddress _ hdiv),
    slotAt_blockAt hwf.blockSize_eq s _ (Nat.mod_lt q hpos)]
  rfl

/-- What happened in the second part of a run happened in the run. -/
theorem mem_eventsSince_of_traces {P Q : Event → Prop} {u : State} (h : Traces P s t) (h' : Traces Q t u)
    {e : Event} (he : e ∈ eventsSince t u) : e ∈ eventsSince s u := by
  rw [h.eventsSince_append h']
  exact List.mem_append_left _ he

/-- The free slots of the clusters `l₂` behind those in `l₁`. -/
def FreeBehind (v : Volume) (s : State) (p : ℕ → Prop) (l₁ l₂ : List ℕ) : Prop :=
  ∀ j c, l₂[j]? = some c → ∀ q < v.slotsPerCluster,
    (slotFree (slotOf v s (slotPlace v (clusterSector v c 0) q)) = true ↔
      p ((l₁.length + j) * v.slotsPerCluster + q))

/-- The search has found the first run in a chain, and read no further than the last cluster number
allows. -/
structure FoundIn (v : Volume) (p : ℕ → Prop) (n : ℕ) (l : List ℕ) (target : Target) (r : ℕ) :
    Prop where
  first : FirstRun p n r
  inside : r + n ≤ l.length * v.slotsPerCluster
  target_eq : target = chainTarget v l r
  readable : ∀ k, l[k]? = some (v.totalClusters + 1) → r + n ≤ (k + 1) * v.slotsPerCluster

/-- The search has passed the clusters `l₁` and is about to look at those in `l₂`. From slot number
`L` on every slot is free, so that the search ends. -/
structure Searching (v : Volume) (s : State) (p : ℕ → Prop) (n L : ℕ) (l₁ l₂ : List ℕ) (c : ℕ)
    (st : Search) : Prop where
  walk : Walks (links v s) (v.clusterEnd ≤ ·) c l₂
  range : ∀ x ∈ l₂, IsCluster v x
  passed : v.totalClusters + 1 ∉ l₁
  free : FreeBehind v s p l₁ l₂
  behind : ∀ m, L ≤ m → p m
  length : L ≤ (l₁.length + l₂.length) * v.slotsPerCluster
  tracks : Tracks p (chainTarget v (l₁ ++ l₂)) n (l₁.length * v.slotsPerCluster) st
  start : 2 ≤ s.startSearchCluster

namespace Searching

variable {p : ℕ → Prop} {n L c : ℕ} {l₁ rest : List ℕ} {st : Search}

/-- The search never passes so many slots. -/
theorem length_lt (hcluster : 0 < v.slotsPerCluster) (hbehind : ∀ m, L ≤ m → p m)
    {target : ℕ → Target} (h : Tracks p target n (k * v.slotsPerCluster) st) : k < L + n := by
  by_contra hle
  have hmul : k ≤ k * v.slotsPerCluster := Nat.le_mul_of_pos_right _ hcluster
  exact h.seen.none L (by omega) fun j _ => hbehind _ (by omega)

variable (h : Searching v s p n L l₁ (c :: rest) c st)
include h

/-- The first cluster is in the volume. -/
theorem isCluster : IsCluster v c := h.range c List.mem_cons_self

/-- The first cluster is no end mark. -/
theorem not_chainStops : ¬ ChainStops v c := by
  rintro (hzero | hend)
  · have hlow := h.isCluster.1
    rw [hzero, clusterFree] at hlow
    omega
  · exact h.walk.2.1 hend

/-- The search in one cluster of a chain. -/
theorem searchCluster (hdev : v.AlwaysSucceeds) (hwf : v.WellFormed)
    (hslots : v.slotsPerSector < 256) {rootDirectory : Bool}
    (hroot : fixedRoot v rootDirectory = false) (sector : ℕ) (hn : n < 2 ^ 32)
    (hbudget : v.slotsPerSector < budget) :
    ∃ result t, (searchSectors v budget c (scanStart v rootDirectory sector c) n v.sectorsPerCluster 0
        st).run s = .ok (Sum.map id some result) t ∧ Reads v s t ∧
      Outcome p (chainTarget v (l₁ ++ c :: rest)) n (l₁.length * v.slotsPerCluster)
        ((l₁.length + 1) * v.slotsPerCluster) result := by
  have hc := h.isCluster
  have hstart : scanStart v rootDirectory sector c = clusterSector v c 0 := by
    simp only [scanStart, hroot, Bool.false_eq_true, if_false]
    exact hwf.clusterToSector_eq hc
  rw [hstart]
  refine h.tracks.searchWindow hdev.1 hslots c _ hn hbudget (fun q hq => ?_) fun q hq => ?_
  · rw [windowSlot_eq hwf s (fun j hj => hwf.addressable_cluster hc hj) hq]
    exact h.free 0 c rfl q hq
  rw [chainTarget, (block_div_mod hq).1, (block_div_mod hq).2, List.getD_eq_getElem?_getD]
  simp

/-- A run that was found in the first cluster. -/
theorem foundIn {found : Target}
    (houtcome : Outcome p (chainTarget v (l₁ ++ c :: rest)) n (l₁.length * v.slotsPerCluster)
      ((l₁.length + 1) * v.slotsPerCluster) (.inr found)) :
    ∃ r, FoundIn v p n (l₁ ++ c :: rest) found r := by
  obtain ⟨r, hfirst, -, hhigh, heq⟩ := houtcome
  refine ⟨r, hfirst, hhigh.trans (Nat.mul_le_mul_right _ (by simp)), heq, fun k hk => ?_⟩
  refine hhigh.trans (Nat.mul_le_mul_right _ ?_)
  by_contra hlt
  rw [List.getElem?_append_left (by omega)] at hk
  exact h.passed (List.mem_of_getElem? hk)

/-- A cluster with another number than the last one has been passed. -/
theorem passed_cons (hc : c ≠ v.totalClusters + 1) : v.totalClusters + 1 ∉ l₁ ++ [c] := by
  intro hmem
  rcases List.mem_append.mp hmem with hmem | hmem
  · exact h.passed hmem
  · exact hc (List.mem_singleton.mp hmem).symm

variable {st' : Search}
  (htracks : Tracks p (chainTarget v (l₁ ++ c :: rest)) n ((l₁.length + 1) * v.slotsPerCluster) st')
include htracks

/-- The search goes on in the next cluster of the chain. -/
theorem next (hwf : v.WellFormed) (hc : c ≠ v.totalClusters + 1) (hreads : Reads v s t) {d : ℕ}
    {rest' : List ℕ} (hrest : rest = d :: rest') :
    Searching v t p n L (l₁ ++ [c]) (d :: rest') d st' := by
  subst hrest
  have hlinks : links v t = links v s := hwf.links_eq fun a _ => by rw [hreads.data]
  have hwalk := h.walk.2.2
  rw [hwalk.head_eq] at hwalk
  refine ⟨by rwa [hlinks], fun x hx => h.range x (List.mem_cons_of_mem _ hx), h.passed_cons hc, ?_,
    h.behind, ?_, by simpa using htracks, by rw [hreads.start]; exact h.start⟩
  · intro j x hx q hq
    rw [slotOf_of_reads hreads, h.free (j + 1) x (by simpa using hx) q hq]
    simp [Nat.add_assoc, Nat.add_comm j 1]
  · have hlength := h.length
    simp only [List.length_cons, List.length_append, List.length_nil] at hlength ⊢
    rwa [show l₁.length + (0 + 1) + (rest'.length + 1) = l₁.length + (rest'.length + 1 + 1) by omega]

/-- The search goes on in a new cluster behind the last one. -/
theorem grown (hwf : v.WellFormed) (hc : c ≠ v.totalClusters + 1) (hrest : rest = []) {new : ℕ}
    (hnew : 2 ≤ new ∧ new < v.totalClusters)
    (hlink : links v t new = v.clusterEnd) (hstart : 2 ≤ t.startSearchCluster)
    (hcleared : ∀ a, ClusterRegion v new a → ∀ k < v.bytesPerSector, t.data a k = 0) :
    Searching v t p n L (l₁ ++ [c]) [new] new st' := by
  subst hrest
  have hlt := hwf.clusters_lt
  have hlength : (l₁ ++ [c]).length = l₁.length + 1 := by simp
  refine ⟨⟨rfl, by omega, hlink.ge⟩, ?_, h.passed_cons hc, ?_, h.behind, ?_, ?_, hstart⟩
  · intro x hx
    rw [List.mem_singleton.mp hx]
    exact ⟨hnew.1, by omega⟩
  · intro j x hx q hq
    have hj : j = 0 := by
      by_contra hj
      rw [List.getElem?_eq_none (by simp; omega)] at hx
      cases hx
    subst hj
    obtain rfl : new = x := by simpa using hx
    have hbehind : L ≤ (l₁ ++ [c]).length * v.slotsPerCluster := by
      rw [hlength]
      exact h.length
    exact iff_of_true (slotFree_of_cleared hwf.slotsPerSector_pos hq hcleared)
      (h.behind _ (by rw [Nat.add_zero]; omega))
  · exact h.length.trans (Nat.mul_le_mul_right _ (by simp))
  · rw [hlength]
    exact htracks.congr fun k hk => chainTarget_append [new] (by rw [hlength]; exact hk)

end Searching

/-- An allocation failed in a search: the link of the last cluster is gone, and every other link in
use is kept or 0. -/
structure Breaks (v : Volume) (last : ℕ) (s t : State) : Prop where
  event : Event.allocated 0 ∈ eventsSince s t
  last_lt : links v t last < v.clusterEnd
  others : ∀ x ≤ v.totalClusters, x ≠ last → links v s x ≠ 0 →
    links v t x = links v s x ∨ links v t x = 0

/-- A search that fails after the chain was led on from `c` to `n`. -/
theorem Breaks.cons {P Q : Event → Prop} {c n : ℕ} {u : State} (htraces : Traces P s t)
    (htraces' : Traces Q t u) (hc : c ≤ v.totalClusters) (hne : n ≠ c) (hn : n < v.clusterEnd)
    (hzero : n ≠ 0) (hfree : links v s n = 0)
    (hlinks : links v t = Function.update (Function.update (links v s) n v.clusterEnd) c n)
    (h : Breaks v n t u) : Breaks v c s u where
  event := mem_eventsSince_of_traces htraces htraces' h.event
  last_lt := by
    have hself : links v t c = n := by rw [hlinks, Function.update_self]
    rcases h.others c hc hne.symm (by omega) with heq | heq <;> omega
  others := by
    intro x hx hxc hused
    have hxn : x ≠ n := by
      rintro rfl
      exact hused hfree
    have heq : links v t x = links v s x := by
      rw [hlinks, Function.update_of_ne hxc, Function.update_of_ne hxn]
    have hcase := h.others x hx hxn (by rwa [heq])
    rwa [heq] at hcase

/-- The search in a chain that ends in the cluster `last`: it returns, and the chain has grown by the
clusters it needed, unless an allocation fails. -/
theorem findEntryLoop_chain (hdev : v.AlwaysSucceeds) (hwf : v.WellFormed) (hwhole : WholeEntries v)
    (hslots : v.slotsPerSector < 256) {rootDirectory : Bool}
    (hroot : fixedRoot v rootDirectory = false) {n c L : ℕ} (sector : ℕ) {st : Search}
    {p : ℕ → Prop} {l₁ l₂ : List ℕ} (hn : n < 2 ^ 32) (hbudget : v.slotsPerSector < budget)
    (h : Searching v s p n L l₁ l₂ c st) (hlast : l₂.getLast? = some last)
    (hfuel : L + n + 1 < fuel + l₁.length) :
    ∃ result t, (findEntryLoop v n rootDirectory budget fuel sector c st).run s = .ok result t ∧
      ((∃ ns, 2 ≤ t.startSearchCluster ∧ Extends v last ns s t ∧
        (result = none → v.totalClusters + 1 ∈ l₂) ∧
        ∀ target, result = some target → ∃ r, FoundIn v p n (l₁ ++ l₂ ++ ns) target r) ∨
      result = none ∧ Breaks v last s t) := by
  have hcluster : 0 < v.slotsPerCluster :=
    Nat.mul_pos v.sectorsPerCluster_pos hwf.slotsPerSector_pos
  have hlt := hwf.clusters_lt
  induction fuel generalizing sector c st l₁ l₂ s last with
  | zero =>
    have := Searching.length_lt hcluster h.behind h.tracks
    omega
  | succ fuel ih =>
    cases l₂ with
    | nil => simp at hlast
    | cons b rest =>
      obtain rfl : c = b := h.walk.head_eq
      obtain ⟨result, t, hsearch, hreads, houtcome⟩ := h.searchCluster hdev hwf hslots hroot sector hn
        hbudget
      rw [findEntryLoop, if_neg h.not_chainStops]
      simp only [hroot, Bool.false_eq_true, if_false]
      rw [bind_of_ok hsearch]
      cases result with
      | inr found =>
        refine ⟨some found, t, rfl, Or.inl ⟨[], by rw [hreads.start]; exact h.start, .of_reads hwf _ hreads,
          by simp, ?_⟩⟩
        rintro _ ⟨⟩
        simpa using h.foundIn houtcome
      | inl st' =>
        have hmany := Searching.length_lt hcluster h.behind houtcome
        obtain ⟨t₁, hnext, hreads₁⟩ := readTable_run hdev.1 c t
        have hboth := hreads.trans hreads₁
        have hlinks : links v t₁ = links v s := hwf.links_eq fun a _ => by rw [hboth.data]
        simp only [Sum.map_inl, id_eq]
        rw [bind_of_ok hnext]
        by_cases hc : c = v.totalClusters + 1
        · -- the entry of the last cluster number reads as 0, which stops the search
          have hzero : tableEntry v t c = 0 := if_pos (by omega)
          obtain ⟨fuel, rfl⟩ := Nat.exists_eq_succ_of_ne_zero (show fuel ≠ 0 by omega)
          rw [hzero, if_neg (by omega), findEntryLoop]
          refine ⟨none, t₁, rfl, Or.inl ⟨[], by rw [hboth.start]; exact h.start, .of_reads hwf _ hboth, ?_,
            by simp⟩⟩
          intro _
          rw [← hc]
          exact List.mem_cons_self
        · have hle : c ≤ v.totalClusters := by
            have := h.isCluster.2
            omega
          have hentry : tableEntry v t c = links v s c := by
            rw [hreads.tableEntry_eq, tableEntry_eq_links hwf hwhole s h.isCluster.1 hle]
          rw [hentry]
          cases rest with
          | cons d rest =>
            have hd : links v s c = d := h.walk.2.2.head_eq
            have hgo : ¬ v.clusterEnd ≤ d := h.walk.2.2.2.1
            rw [hd, if_neg hgo]
            obtain ⟨result, t₂, hrun, hcase⟩ := ih _ (h.next houtcome hwf hc hboth rfl)
              (by rwa [List.getLast?_cons_cons] at hlast)
              (by simp only [List.length_append, List.length_singleton]; omega)
            refine ⟨result, t₂, hrun, ?_⟩
            rcases hcase with ⟨ns, hstart, hextends, hnone, hsome⟩ | ⟨hnone, hbreaks⟩
            · refine Or.inl ⟨ns, hstart, hextends.after_reads hwf hboth,
                fun hr => List.mem_cons_of_mem _ (hnone hr), ?_⟩
              simpa using hsome
            · have htraces := keepsQuiet_findEntryLoop v n rootDirectory budget fuel
                (scanStart v rootDirectory sector c) d st' t₁
              rw [hrun] at htraces
              refine Or.inr ⟨hnone, mem_eventsSince_of_traces hboth.traces htraces hbreaks.event,
                hbreaks.last_lt, ?_⟩
              simpa only [hlinks] using hbreaks.others
          | nil =>
            obtain rfl : c = last := by simpa using hlast
            have hend : v.clusterEnd ≤ links v s c := h.walk.2.2
            have hstart₁ : 2 ≤ t₁.startSearchCluster := by rw [hboth.start]; exact h.start
            obtain ⟨new, t₂, halloc, htraces, hevent, hgrow⟩ := grow_run hdev hwf hwhole h.isCluster.1 hle
              hstart₁ (show links v t₁ c ≠ 0 by rw [hlinks]; omega)
            rw [if_pos hend, bind_of_ok halloc]
            by_cases hnew : new = 0
            · -- cluster 0 is cleared and linked like any other, and stops the search
              subst hnew
              obtain ⟨⟨hdata, -⟩, -⟩ := allocateCluster_failed (by omega) halloc
              have hlinks₂ : links v t₂ = links v s := hwf.links_eq fun a _ => by rw [hdata, hboth.data]
              obtain ⟨t₃, hclear, hwipes⟩ := clearCluster_wipes hwf.blockSize_eq hdev.2 0 t₂
              obtain ⟨t₄, htable, halters, -, hlinks₄⟩ := writeTable_run hwf hwhole hdev h.isCluster.1 hle
                (Nat.zero_le v.clusterEnd) t₃
              obtain ⟨fuel, rfl⟩ := Nat.exists_eq_succ_of_ne_zero (show fuel ≠ 0 by omega)
              rw [bind_of_ok hclear, bind_of_ok htable, findEntryLoop]
              refine ⟨none, t₄, rfl, Or.inr ⟨rfl, ?_, ?_, fun x hx hne _ => ?_⟩⟩
              · have hrest := hwipes.trace.trans (halters.trace.mono fun _ _ => trivial)
                rw [hboth.traces.eventsSince_append (htraces.trans hrest), htraces.eventsSince_append hrest]
                simp [hevent]
              · rw [hlinks₄, Function.update_self]
                omega
              · rw [hlinks₄, Function.update_of_ne hne, ← hlinks₂]
                exact hwipes.links_eq hwf hwhole hx
            · obtain ⟨t₃, t₄, hclear, htable, hstart, hfresh, hne, hlinks', halters, hcleared⟩ := hgrow hnew
              rw [bind_of_ok hclear, bind_of_ok htable]
              have hlink : links v t₄ new = v.clusterEnd := by
                rw [hlinks', Function.update_of_ne hne, Function.update_self]
              obtain ⟨result, u, hrun, hcase⟩ := ih _
                (h.grown houtcome hwf hc rfl ⟨hfresh.1, hfresh.2.1⟩ hlink hstart hcleared) rfl
                (by simp only [List.length_append, List.length_singleton]; omega)
              refine ⟨result, u, hrun, ?_⟩
              rcases hcase with ⟨ns, hstart', hextends, hnone, hsome⟩ | ⟨hnone, hbreaks⟩
              · refine Or.inl ⟨new :: ns, hstart',
                  (hextends.cons hwf hfresh hne hlinks' halters hcleared).after_reads hwf hboth, ?_, ?_⟩
                · intro hr
                  have hmem := List.mem_singleton.mp (hnone hr)
                  omega
                · simpa using hsome
              · have hquiet := keepsQuiet_findEntryLoop v n rootDirectory budget fuel
                  (scanStart v rootDirectory sector c) new st' t₄
                rw [hrun] at hquiet
                rw [hlinks] at hlinks' hfresh
                have htraces₄ : Traces (fun _ => True) s t₄ :=
                  (hboth.traces.mono fun _ _ => trivial).trans (halters.trace.mono fun _ _ => trivial)
                exact Or.inr ⟨hnone, hbreaks.cons htraces₄ hquiet hle hne (by omega) hnew hfresh.2.2
                  hlinks'⟩

/-- A chain as a walk over the links. -/
theorem FileChain.walks_links {c : ℕ} (h : FileChain v s c l) (hne : l ≠ []) :
    Walks (links v s) (v.clusterEnd ≤ ·) c l := by
  rcases h with ⟨-, hnil⟩ | h
  · exact absurd hnil hne
  · exact h.1.congr fun x hx => links_of_le s (h.2 x hx).2

/-- A search in a chain of clusters starts. -/
theorem FileChain.searching (hwf : v.WellFormed) {c n : ℕ} (hl : FileChain v s c l) (hne : l ≠ [])
    (hn : 0 < n) (hstart : 2 ≤ s.startSearchCluster) :
    Searching v s (FreeAt v s (chainPlaces v l)) n (l.length * v.slotsPerCluster) [] l c
      ⟨0, ⟨0, 0, 0⟩⟩ := by
  have hpos := hwf.slotsPerSector_pos
  have hcluster : 0 < v.slotsPerCluster := Nat.mul_pos v.sectorsPerCluster_pos hpos
  refine ⟨hl.walks_links hne, hl.isCluster, by simp, ?_, ?_, by simp, ?_, hstart⟩
  · intro j x hx q hq
    have hplace : (chainPlaces v l)[j * v.slotsPerCluster + q]? =
        some (slotPlace v (clusterSector v x 0) q) := by
      rw [chainPlaces_getElem? hpos, Nat.mul_comm j, Nat.mul_add_div hcluster,
        Nat.div_eq_of_lt hq, Nat.add_zero, hx, Nat.mul_add_mod, Nat.mod_eq_of_lt hq]
      rfl
    simp [FreeAt, hplace]
  · intro m hm p hp
    rw [chainPlaces_getElem? hpos, List.getElem?_eq_none] at hp
    · cases hp
    · rwa [Nat.le_div_iff_mul_le hcluster]
  · simpa using tracks_zero hn _

/-- `FindEntryStartpoint` in a directory that is a chain of clusters. -/
theorem findEntryStartpoint_chain (hdev : v.AlwaysSucceeds) (hwf : v.WellFormed)
    (hwhole : WholeEntries v) (hslots : v.slotsPerSector < 256) {rootDirectory : Bool}
    (hroot : fixedRoot v rootDirectory = false) {n c : ℕ} {xs : List ℕ} (hn : 0 < n)
    (hn' : n < 2 ^ 32) (hl : FileChain v s c (xs ++ [last])) (hstart : 2 ≤ s.startSearchCluster)
    (hfuel : (xs.length + 1) * v.slotsPerCluster + v.slotsPerSector + n + 1 < fuel) :
    ∃ result t, (findEntryStartpoint v fuel c n rootDirectory).run s = .ok result t ∧
      ((∃ ns, 2 ≤ t.startSearchCluster ∧ Extends v last ns s t ∧
        (result = none → v.totalClusters + 1 ∈ xs ++ [last]) ∧
        ∀ target, result = some target →
          ∃ r, FoundIn v (FreeAt v s (chainPlaces v (xs ++ [last]))) n (xs ++ [last] ++ ns) target r) ∨
      result = none ∧ Breaks v last s t) := by
  have hsearching := hl.searching hwf (by simp) hn hstart
  rw [List.length_append] at hsearching
  obtain ⟨result, t, hrun, hrest⟩ := findEntryLoop_chain hdev hwf hwhole hslots hroot 0 hn'
    (show v.slotsPerSector < fuel by omega) hsearching
    (show (xs ++ [last]).getLast? = some last by simp)
    (show (xs.length + 1) * v.slotsPerCluster + n + 1 < fuel + ([] : List ℕ).length by
      omega)
  exact ⟨result, t, hrun, by simpa using hrest⟩

/-- The free slots of a directory that was extended by cleared clusters: behind its end every slot was
free before. -/
theorem Extends.freeAt (hwf : v.WellFormed) {c : ℕ} {xs ns : List ℕ} (h : Extends v last ns s t)
    (hl : FileChain v s c (xs ++ [last])) :
    FreeAt v t (chainPlaces v (xs ++ [last] ++ ns)) = FreeAt v s (chainPlaces v (xs ++ [last])) := by
  have hold (p : Place) (hp : p ∈ chainPlaces v (xs ++ [last])) : slotOf v t p = slotOf v s p :=
    h.slotOf_old (fun x hx => ⟨(hl.isCluster x hx).1, fun hnew =>
      hl.links_ne_zero hwf hx (h.relinks.fresh x hnew).2.2⟩) hp
  funext m
  refine propext (forall_congr' fun p => ?_)
  rw [chainPlaces_append (xs ++ [last])]
  rcases Nat.lt_or_ge m (chainPlaces v (xs ++ [last])).length with hlt | hge
  · rw [List.getElem?_append_left hlt]
    refine imp_congr_right fun hp => ?_
    rw [hold p (List.mem_of_getElem? hp)]
  · rw [List.getElem?_append_right hge, List.getElem?_eq_none hge]
    refine iff_of_true (fun hp => ?_) (fun hp => by cases hp)
    rw [h.slotOf_new (List.mem_of_getElem? hp)]
    rfl

/-- From `s` to `t` a search found `n` free slots from `target` on. The directory with first cluster `c`
and the clusters `l` kept its slots, and got the cleared clusters `ns`. -/
structure FindsSlots (v : Volume) (s t : State) (c : ℕ) (l ns : List ℕ) (n : ℕ) (target : Target) :
    Prop where
  chain : FileChain v t c (l ++ ns)
  cleared : ∀ x ∈ ns, ∀ a, ClusterRegion v x a → ∀ k < v.bytesPerSector, t.data a k = 0
  kept : ∀ p ∈ chainPlaces v l, slotOf v t p = slotOf v s p
  found : ∃ r, FirstRun (FreeAt v t (chainPlaces v (l ++ ns))) n r ∧
    r + n ≤ (chainPlaces v (l ++ ns)).length ∧ target = chainTarget v (l ++ ns) r

/-- In a directory that is a chain of clusters with entries in the table, the search returns the first
run of free slots, unless an allocation fails. -/
theorem findEntryStartpoint_finds (hdev : v.AlwaysSucceeds) (hwf : v.WellFormed)
    (hbytes : v.bytesPerSector = 512) {rootDirectory : Bool}
    (htype : v.fatType = .FAT32 ∨ v.fatType = .FAT16 ∧ rootDirectory = false) {c n : ℕ} (hn : 0 < n)
    (hn' : n < 2 ^ 32) {l : List ℕ} (hl : FileChain v s c l) (hne : l ≠ [])
    (hrange : ∀ x ∈ l, x ≤ v.totalClusters) (hstart : 2 ≤ s.startSearchCluster) :
    ∃ result t, Returns (fun fuel => findEntryStartpoint v fuel c n rootDirectory) s result t ∧
      (Event.allocated 0 ∉ eventsSince s t →
        ∃ target ns, result = some target ∧ FindsSlots v s t c l ns n target) := by
  obtain ⟨xs, last, rfl⟩ := (List.eq_nil_or_concat' l).resolve_left hne
  have hslots : v.slotsPerSector < 256 := by
    rw [Geometry.slotsPerSector, hbytes]
    decide
  have hwhole : WholeEntries v := wholeEntries_of_type fun h => by simp [h] at htype
  have hroot : fixedRoot v rootDirectory = false := by
    rcases htype with h | ⟨-, h⟩ <;> simp [fixedRoot, h]
  obtain ⟨result, t, hrun, hcases⟩ := findEntryStartpoint_chain hdev hwf hwhole hslots hroot hn hn' hl
    hstart (Nat.lt_succ_self _)
  refine ⟨result, t, (findEntryStartpoint_stable v c n rootDirectory).returns hrun, fun hallocated => ?_⟩
  obtain ⟨ns, -, hextends, hnone, hsome⟩ := hcases.resolve_right fun h => hallocated h.2.event
  cases result with
  | none =>
    have hle := hrange _ (hnone rfl)
    omega
  | some target =>
    obtain ⟨r, hfound⟩ := hsome target rfl
    refine ⟨target, ns, rfl, ?_, hextends.cleared, fun p hp => ?_, r, ?_, ?_, hfound.target_eq⟩
    · rw [List.append_assoc]
      exact hextends.relinks.fileChain hwf hl
    · exact hextends.slotOf_old (fun x hx => ⟨(hl.isCluster x hx).1, fun hnew =>
        hl.links_ne_zero hwf hx (hextends.relinks.fresh x hnew).2.2⟩) hp
    · rw [hextends.freeAt hwf hl]
      exact hfound.first
    · rw [length_chainPlaces hwf.slotsPerSector_pos]
      exact hfound.inside

/-- A directory of one cluster with 15 free slots grows in a search for 17. -/
theorem findEntryStartpoint_finds_slice :
    ∃ t target ns, Returns (fun fuel => findEntryStartpoint (smallVolume 0) fuel 2 17 false) sliceState
      (some target) t ∧ FindsSlots (smallVolume 0) sliceState t 2 [2] ns 17 target := by
  obtain ⟨result, t, hreturns, hfinds⟩ := findEntryStartpoint_finds (smallVolume_alwaysSucceeds 0)
    (smallVolume_wellFormed 0) rfl (Or.inr ⟨rfl, rfl⟩) (show 0 < 17 by decide) (by decide)
    slice_fileChain (by decide) (by decide) (le_refl 2)
  have hanswer : answer ((findEntryStartpoint (smallVolume 0) 64 2 17 false).run sliceState) =
      some (some ⟨2, 0, 32⟩) := by
    decide +kernel
  have hfinal := (hreturns.unique
    ((findEntryStartpoint_stable (smallVolume 0) 2 17 false).returns (eq_ok_of_answer hanswer))).2
  have hallocated : Event.allocated 0 ∉ eventsSince sliceState t := by
    rw [hfinal]
    decide +kernel
  obtain ⟨target, ns, rfl, hfound⟩ := hfinds hallocated
  exact ⟨t, target, ns, hreturns, hfound⟩

end Chain

/-! ## The fixed root directory -/

section FixedRoot

/-- A slot of the sectors that the search looks at in one round. -/
def InWindow (v : Volume) (cluster : ℕ) (target : Target) : Prop :=
  ∃ i < v.sectorsPerCluster, ∃ j < v.slotsPerSector, target = ⟨cluster, i, 32 * j⟩

/-- A run that is counted started in a window. -/
def StartsInWindow (v : Volume) (cluster : ℕ) (st : Search) : Prop :=
  st.freeCount ≠ 0 → InWindow v cluster st.target

/-- A slot is found in the window of its cluster. -/
theorem searchSlot_inWindow {n : ℕ} {st : Search} {here : Target} (h : StartsInWindow v cluster st)
    (hhere : InWindow v cluster here) (slot : Bytes) :
    Sum.elim (StartsInWindow v cluster) (InWindow v cluster) (searchSlot slot here n st) := by
  unfold searchSlot
  split
  · have hstart : InWindow v cluster (if st.freeCount = 0 then here else st.target) := by
      split
      · exact hhere
      · next hne => exact h hne
    dsimp only
    split
    · exact hstart
    · exact fun _ => hstart
  · exact fun hne => absurd rfl hne

/-- Slots are found in the window of their cluster. -/
theorem searchSectors_inWindow {n i : ℕ} {st : Search} (hk : i + k ≤ v.sectorsPerCluster)
    (h : StartsInWindow v cluster st) {result : Search ⊕ Option Target}
    (hrun : (searchSectors v budget cluster sector n k i st).run s = .ok result t) :
    Sum.elim (StartsInWindow v cluster) (fun r => ∀ target, r = some target → InWindow v cluster target)
      result := by
  induction k generalizing i st s with
  | zero =>
    cases hrun
    exact h
  | succ k ih =>
    obtain ⟨status, t₁, -, hrun⟩ := bind_eq_ok.mp hrun
    split at hrun
    · cases hrun
      rintro _ ⟨⟩
    · obtain ⟨buffer, t₂, -, hrun⟩ := bind_eq_ok.mp hrun
      dsimp only at hrun
      split at hrun
      · cases hrun
      · next target hloop =>
        cases hrun
        rintro _ ⟨⟩
        exact loop8_rule (fun j hj st hst => searchSlot_inWindow hst ⟨i, by omega, j, hj, rfl⟩ _) h hloop
      · next st' hloop =>
        exact ih (by omega)
          (loop8_rule (fun j hj st hst => searchSlot_inWindow hst ⟨i, by omega, j, hj, rfl⟩ _) h hloop)
          hrun

variable {rootDirectory : Bool} (hroot : fixedRoot v rootDirectory = true)
include hroot

/-- In a fixed root the search only reads. -/
theorem readsOnly_findEntryLoop (budget n fuel sector cluster : ℕ) (st : Search) :
    ReadsOnly v (findEntryLoop v n rootDirectory budget fuel sector cluster st) := by
  induction fuel generalizing sector st with
  | zero => exact .throw _
  | succ fuel ih =>
    refine .ite (.pure _) ?_
    simp only [hroot, if_true]
    apply ReadsOnly.bind (readsOnly_searchSectors v _ _ _ _ _ _ _)
    rintro (st' | found)
    · exact .ite (.pure _) (ih _ _)
    · exact .pure _

/-- What a search in a fixed root finds lies in a window. -/
theorem findEntryLoop_inWindow {n : ℕ} {st : Search} (h : StartsInWindow v cluster st)
    {target : Target}
    (hrun : (findEntryLoop v n rootDirectory budget fuel sector cluster st).run s = .ok (some target) t) :
    InWindow v cluster target := by
  induction fuel generalizing sector st s with
  | zero => cases hrun
  | succ fuel ih =>
    rw [findEntryLoop] at hrun
    split at hrun
    · cases hrun
    · obtain ⟨r, t₁, hsearch, hrun⟩ := bind_eq_ok.mp hrun
      have hwindow := searchSectors_inWindow (Nat.zero_add _).le h hsearch
      cases r with
      | inr found =>
        cases hrun
        exact hwindow target rfl
      | inl st' =>
        dsimp only at hrun
        split at hrun
        · cases hrun
        · exact ih hwindow hrun

end FixedRoot

section FirstSector

/-- Slot number `m` of the root directory region is free. -/
def RootFree (v : Volume) (s : State) (m : ℕ) : Prop :=
  slotFree (slotOf v s (slotPlace v v.rootStart m)) = true

/-- The sectors of a window, and the one behind them, can be addressed. -/
theorem addressable_root (hwf : v.WellFormed) (hclusters : 3 ≤ v.totalClusters)
    (hi : i ≤ v.sectorsPerCluster + 1) : Addressable v (v.rootStart + i) := by
  have hmul : 3 * v.sectorsPerCluster ≤ v.totalClusters * v.sectorsPerCluster :=
    Nat.mul_le_mul_right _ hclusters
  have hpos := v.sectorsPerCluster_pos
  have hdata := hwf.data_le
  have hlba := hwf.lba_le
  have hle := v.rootStart_le
  constructor <;> omega

/-- The search in a window of the fixed root, from sector number `k` on. -/
theorem searchWindow_run {rootDirectory : Bool} (hdev : v.AlwaysSucceeds) (hwf : v.WellFormed)
    (hslots : v.slotsPerSector < 256) (hclusters : 3 ≤ v.totalClusters) {n : ℕ} (hk : k ≤ 1)
    (hstart : scanStart v rootDirectory sector cluster = v.rootStart + k)
    (hbudget : v.slotsPerSector < budget) (st : Search) (s : State) :
    ∃ t, (searchSectors v budget cluster (scanStart v rootDirectory sector cluster) n
          v.sectorsPerCluster 0 st).run s =
        .ok (Sum.map id some (foldStop (fun q => searchSlot
          (slotOf v s (slotPlace v (v.rootStart + k) q)) (slotTarget v cluster q) n)
          (List.range' 0 v.slotsPerCluster) st)) t ∧ Reads v s t := by
  have haddress : ∀ j, 0 ≤ j → j < 0 + v.sectorsPerCluster → Addressable v (v.rootStart + k + j) := by
    intro j _ hj
    rw [Nat.add_assoc]
    exact addressable_root hwf hclusters (by omega)
  rw [hstart]
  have hrun := searchSectors_run hslots hdev.1 hwf.blockSize_eq hwf.slotsPerSector_pos cluster n
    haddress hbudget st s
  rwa [Nat.zero_mul] at hrun

/-- Slot numbers in the window that starts one sector later. -/
theorem slotPlace_next (hpos : 0 < v.slotsPerSector) (sector q : ℕ) :
    slotPlace v (sector + 1) q = slotPlace v sector (v.slotsPerSector + q) := by
  rw [slotPlace, slotPlace, Nat.add_mod_left, Nat.add_div_left _ hpos]
  simp only [Place.mk.injEq, and_true]
  omega

/-- A run in the first sector that lacks one slot is completed by the first slot of the next. -/
theorem searchSlot_of_tracks {p : ℕ → Prop} {target : ℕ → Target} {n m : ℕ} {st : Search}
    (h : Tracks p target n m st) (hn : 2 ≤ n) (hn' : n < 2 ^ 32) (hq : q + n = m + 1)
    (hrun : RunAt p n q) {slot : Bytes} (hslot : slotFree slot = true) (here : Target) :
    searchSlot slot here n st = .inr (target q) := by
  have hshort := h.seen.short
  have hcount : st.freeCount + 1 = n := by
    by_contra hne
    apply h.seen.gap (by omega)
    have hp := hrun (m - st.freeCount - 1 - q) (by omega)
    rwa [Nat.add_sub_cancel' (by omega)] at hp
  have hwrap : wrap32 (st.freeCount + 1) = n := by rw [wrap32_of_lt (by omega), hcount]
  have hstart : st.target = target q := by
    rw [h.start (by omega), show m - st.freeCount = q by omega]
  simp only [searchSlot, hslot, if_true, hwrap, if_neg (show ¬ st.freeCount = 0 by omega), hstart]

/-- The search in the first window of the fixed root. -/
theorem searchFirstWindow_outcome {rootDirectory : Bool} (hroot : fixedRoot v rootDirectory = true)
    (hdev : v.AlwaysSucceeds) (hwf : v.WellFormed) (hslots : v.slotsPerSector < 256)
    (hclusters : 3 ≤ v.totalClusters) {n : ℕ} (cluster : ℕ) (hn : 0 < n) (hn' : n < 2 ^ 32)
    (hbudget : v.slotsPerSector < budget) (s : State) :
    ∃ result t, (searchSectors v budget cluster (scanStart v rootDirectory 0 cluster) n v.sectorsPerCluster 0
        ⟨0, ⟨0, 0, 0⟩⟩).run s = .ok (Sum.map id some result) t ∧ Reads v s t ∧
      Outcome (RootFree v s) (slotTarget v cluster) n 0 v.slotsPerCluster result := by
  obtain ⟨t, hsearch, hreads⟩ := searchWindow_run hdev hwf hslots hclusters (Nat.zero_le 1)
    (scanStart_root hwf hroot cluster) hbudget ⟨0, ⟨0, 0, 0⟩⟩ s
  have houtcome : Outcome (RootFree v s) (slotTarget v cluster) n (0 + 0) (0 + 0 + v.slotsPerCluster)
      (foldStop (fun q => searchSlot (slotOf v s (slotPlace v (v.rootStart + 0) q))
        (slotTarget v cluster q) n) (List.range' 0 v.slotsPerCluster) ⟨0, ⟨0, 0, 0⟩⟩) :=
    Tracks.foldStop (tracks_zero hn _) hn' (fun q _ _ => by simp [RootFree]) fun q _ _ => by simp
  rw [Nat.zero_add, Nat.zero_add] at houtcome
  exact ⟨_, t, hsearch, hreads, houtcome⟩

/-- A run that starts in the first sector of a fixed root, and ends there or in the slot behind it,
is found where it is. -/
theorem findEntryLoop_root {rootDirectory : Bool} (hroot : fixedRoot v rootDirectory = true)
    (hdev : v.AlwaysSucceeds) (hwf : v.WellFormed) (hslots : v.slotsPerSector < 256)
    (hclusters : 3 ≤ v.totalClusters) {n : ℕ} (hn : 2 ≤ n) (hn' : n < 2 ^ 32)
    (hbudget : v.slotsPerSector < budget) (hq : q + n ≤ v.slotsPerSector + 1)
    (hfree : RunAt (RootFree v s) n q) {found : Target}
    (hrun : (findEntryLoop v n rootDirectory budget fuel 0 cluster ⟨0, ⟨0, 0, 0⟩⟩).run s =
      .ok (some found) t) :
    ∃ r ≤ q, RunAt (RootFree v s) n r ∧ found = slotTarget v cluster r := by
  have hpos := hwf.slotsPerSector_pos
  have hwidth : v.slotsPerSector ≤ v.slotsPerCluster :=
    Nat.le_mul_of_pos_left _ v.sectorsPerCluster_pos
  cases fuel with
  | zero => cases hrun
  | succ fuel =>
    obtain ⟨result, t₁, hsearch, hreads, houtcome⟩ := searchFirstWindow_outcome hroot hdev hwf hslots hclusters
      cluster (show 0 < n by omega) hn' hbudget s
    rw [findEntryLoop] at hrun
    split at hrun
    · cases hrun
    · next hgo =>
      rw [bind_of_ok hsearch] at hrun
      cases result with
      | inr target =>
        obtain ⟨r, hr, -, -, rfl⟩ := houtcome
        cases hrun
        exact ⟨r, hr.le_of_runAt hfree, hr.run, rfl⟩
      | inl st' =>
        -- the run ends in the first slot of the second sector, and a window has one sector
        have hlast : v.slotsPerCluster < q + n := by
          by_contra hle
          exact houtcome.seen.none q (by omega) hfree
        have htracks : Tracks (RootFree v s) (slotTarget v cluster) n v.slotsPerSector st' := by
          have heq : v.slotsPerCluster = v.slotsPerSector := by omega
          rwa [heq] at houtcome
        have hslot : slotFree (slotOf v t₁ (slotPlace v (v.rootStart + 1) 0)) = true := by
          have hp := hfree (v.slotsPerSector - q) (by omega)
          rw [Nat.add_sub_cancel' (by omega)] at hp
          rwa [slotOf_of_reads hreads, slotPlace_next hpos]
        have hwrap : wrap32 (scanStart v rootDirectory 0 cluster + 1) = v.rootStart + 1 := by
          rw [scanStart_root hwf hroot]
          exact wrap32_of_lt (addressable_root hwf hclusters (by omega)).1
        have hsecond : scanStart v rootDirectory (v.rootStart + 1) cluster = v.rootStart + 1 := by
          simp [scanStart, hroot]
        simp only [Sum.map_inl, id_eq, hwrap] at hrun
        split at hrun
        · cases hrun
        · cases fuel with
          | zero => cases hrun
          | succ fuel =>
            obtain ⟨t₂, hsearch', -⟩ := searchWindow_run hdev hwf hslots hclusters
              (le_refl 1) hsecond hbudget st' t₁
            obtain ⟨w, hw⟩ := Nat.exists_eq_succ_of_ne_zero (show v.slotsPerCluster ≠ 0 by omega)
            rw [findEntryLoop, if_neg hgo] at hrun
            rw [bind_of_ok hsearch', hw, List.range'_succ, foldStop,
              searchSlot_of_tracks htracks hn hn' (by omega) hfree hslot] at hrun
            cases hrun
            exact ⟨q, le_refl q, hfree, rfl⟩

end FirstSector

end Vsos.Fat
