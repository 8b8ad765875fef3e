import Vsos.Fat.Links
import Vsos.Fat.Slice
import Vsos.Fat.WriteBounds

/-!
# What writing a file does to the volume

The loop of `WriteFile` fills a cluster, allocates a new one and links it behind the filled
one. On a FAT16 or FAT32 volume whose allocations succeed the result is a new chain: the
first cluster of the file followed by clusters that were free, one more than the data needs.
Everything outside of the table and of these clusters keeps its bytes.
-/

namespace Vsos.Fat

open Vsos.Lib

variable {cluster i len n : ℕ} {s : State}

/-- A data sector receives the bytes of the file that belong to it. -/
theorem writeDataSector_bytes {v : Volume} (hdev : v.AlwaysSucceeds)
    (hblock : v.blockSize = v.bytesPerSector) (buffer : Bytes) (address : ℕ) (hlen : len < 2 ^ 32)
    (k : ℕ) (s : State) :
    ∃ t, (writeDataSector v buffer address (k * v.bytesPerSector) (bytesLeftAt v len k)).run s =
        .ok 0 t ∧
      Alters (· = address) s t ∧ t.startSearchCluster = s.startSearchCluster ∧
      ∀ y < v.bytesPerSector, k * v.bytesPerSector + y < len →
        t.data address y = buffer (k * v.bytesPerSector + y) := by
  have hleft {y : ℕ} (hy : k * v.bytesPerSector + y < len) :
      bytesLeftAt v len k = len - k * v.bytesPerSector := by
    rw [bytesLeftAt, wrap32_of_lt (by omega), sub32_of_le (by omega) hlen]
  unfold writeDataSector
  split
  · rw [bind_of_ok (emit_run _ _), bind_of_ok (modifyReadBuffer_run _ _),
      writeReadBuffer_run hdev.2]
    refine ⟨_, rfl, ⟨fun a ha => Function.update_of_ne ha _ _, ?_⟩, rfl, fun y hy hin => ?_⟩
    · exact ⟨[.writeSector address, .load _ _], rfl, by simp [Event.Confined]⟩
    · simp only [Function.update_self]
      rw [Bytes.blit_of_mem (Nat.zero_le _) (by omega), Nat.sub_zero, hleft hin,
        Bytes.blit_of_mem (Nat.zero_le _) (by omega), Nat.sub_zero, Bytes.shift_apply]
  · rw [bind_of_ok (emit_run _ _), writeSector_run hdev.2]
    refine ⟨_, rfl, ⟨fun a ha => Function.update_of_ne ha _ _, ?_⟩, rfl, fun y hy hin => ?_⟩
    · exact ⟨[.writeSector address, .load _ _], rfl, by simp [Event.Confined]⟩
    · simp only [Function.update_self]
      rw [Bytes.blit_of_mem (Nat.zero_le _) (by omega), Nat.sub_zero, Bytes.shift_apply]

/-- The sectors of a cluster from number `i` on receive the bytes of the file that belong to
them; sector `i` holds the block number `j`. -/
theorem writeSectors_bytes {v : Volume} (hdev : v.AlwaysSucceeds) (hwf : v.WellFormed)
    (buffer : Bytes) (hlen : len < 2 ^ 32) (hcluster : IsCluster v cluster) {base j : ℕ}
    (hbase : base + i * v.bytesPerSector = j * v.bytesPerSector) (hn : i + n ≤ v.sectorsPerCluster)
    (s : State) :
    ∃ t, (writeSectors v buffer len (clusterToSector v cluster) base n i
          (wrap32 (j * v.bytesPerSector))).run s = .ok (some (wrap32 ((j + n) * v.bytesPerSector))) t ∧
      Alters (fun a => ∃ k, i ≤ k ∧ k < v.sectorsPerCluster ∧ a = clusterAddress v cluster k) s t ∧
      t.startSearchCluster = s.startSearchCluster ∧
      ∀ k < n, ∀ y < v.bytesPerSector, (j + k) * v.bytesPerSector + y < len →
        t.data (clusterAddress v cluster (i + k)) y = buffer ((j + k) * v.bytesPerSector + y) := by
  induction n generalizing i j s with
  | zero => exact ⟨s, rfl, Alters.refl _ s, rfl, by simp⟩
  | succ n ih =>
    have haddress : lba v (clusterToSector v cluster) i = clusterAddress v cluster i :=
      hwf.lba_cluster hcluster (by omega)
    obtain ⟨t, hrun, halters, hstart, hbytes⟩ := writeDataSector_bytes hdev hwf.blockSize_eq buffer
      (clusterAddress v cluster i) hlen j s
    have hbase' : base + (i + 1) * v.bytesPerSector = (j + 1) * v.bytesPerSector := by
      rw [Nat.succ_mul, Nat.succ_mul]
      omega
    obtain ⟨u, hrun', halters', hstart', hbytes'⟩ := ih hbase' (by omega) t
    refine ⟨u, ?_, ?_, hstart'.trans hstart, ?_⟩
    · rw [writeSectors, hbase, haddress,
        show sub32 len (wrap32 (j * v.bytesPerSector)) = bytesLeftAt v len j from rfl, bind_of_ok hrun,
        if_neg (by simp), wrap32_next, hrun', show j + 1 + n = j + (n + 1) by omega]
    · apply (halters.mono ?_).trans (halters'.mono ?_)
      · rintro a rfl
        exact ⟨i, le_refl i, by omega, rfl⟩
      · rintro a ⟨k, hk, hk', rfl⟩
        exact ⟨k, by omega, hk', rfl⟩
    · intro k hk y hy hin
      cases k with
      | zero =>
        rw [Nat.add_zero] at hin ⊢
        rw [Nat.add_zero, halters'.data, hbytes y hy hin]
        rintro ⟨k, hk, -, heq⟩
        simp only [clusterAddress] at heq
        omega
      | succ k =>
        rw [show j + (k + 1) = j + 1 + k by omega] at hin ⊢
        rw [show i + (k + 1) = i + 1 + k by omega]
        exact hbytes' k (by omega) y hy hin

/-- The first cluster of a chain holds its first bytes. -/
theorem chainByte_cons_lt {v : Volume} (s : State) (c : ℕ) (l : List ℕ) {x : ℕ}
    (hx : x < v.clusterSize) :
    chainByte v s (c :: l) x = s.data (clusterAddress v c (x / v.bytesPerSector)) (x % v.bytesPerSector) := by
  rw [chainByte, Nat.div_eq_of_lt hx, Nat.mod_eq_of_lt hx]
  rfl

/-- The other clusters of a chain hold the other bytes. -/
theorem chainByte_cons_ge {v : Volume} (s : State) (c : ℕ) (l : List ℕ) {x : ℕ}
    (hx : v.clusterSize ≤ x) : chainByte v s (c :: l) x = chainByte v s l (x - v.clusterSize) := by
  have hbytes : (x - v.clusterSize) % v.bytesPerSector = x % v.bytesPerSector := by
    conv_rhs => rw [show x = x - v.clusterSize + v.clusterSize by omega, Geometry.clusterSize,
      Nat.add_mul_mod_self_left]
    rfl
  rw [chainByte, chainByte, Nat.div_eq_sub_div v.clusterSize_pos hx, List.getElem?_cons_succ,
    Nat.mod_eq_sub_mod hx, hbytes]

/-- The bytes of a chain depend on the sectors of its clusters. -/
theorem chainByte_congr {v : Volume} {t : State} {l : List ℕ}
    (h : ∀ c ∈ l, ∀ a, ClusterRegion v c a → t.data a = s.data a) (x : ℕ) :
    chainByte v t l x = chainByte v s l x := by
  rw [chainByte, chainByte]
  cases hget : l[x / v.clusterSize]? with
  | none => rfl
  | some c =>
    have hsector : x % v.clusterSize / v.bytesPerSector < v.sectorsPerCluster := by
      apply Nat.div_lt_of_lt_mul
      exact Nat.mod_lt _ v.clusterSize_pos
    simp only
    rw [h c (List.mem_of_getElem? hget) _ ⟨_, hsector, rfl⟩]

/-- From `s` to `t` the chain behind `c` was replaced by the clusters `ns`, which were free, and
filled with the bytes of the file from cluster number `i` on. -/
structure Grows (v : Volume) (buffer : Bytes) (len i c : ℕ) (ns : List ℕ) (s t : State) : Prop where
  alters : Alters (fun a => TableRegion v a ∨ ∃ x ∈ c :: ns, ClusterRegion v x a) s t
  links_eq : links v t = relink (links v s) v.clusterEnd c ns
  fresh : ∀ x ∈ ns, 2 ≤ x ∧ x < v.totalClusters ∧ links v s x = 0
  nodup : (c :: ns).Nodup
  bytes : ∀ x < ns.length * v.clusterSize, i * v.clusterSize + x < len →
    chainByte v t (c :: ns) x = buffer (i * v.clusterSize + x)

/-- A chain grows by its first new cluster, and then by the others. -/
theorem Grows.cons {v : Volume} (hwf : v.WellFormed) {buffer : Bytes} {c : ℕ} {ns : List ℕ}
    {t u : State} (hlow : 2 ≤ c) (hn : 2 ≤ n ∧ n < v.totalClusters ∧ links v s n = 0) (hne : n ≠ c)
    (halters : Alters (fun a => TableRegion v a ∨ ClusterRegion v c a) s t)
    (hlinks : links v t = Function.update (Function.update (links v s) n v.clusterEnd) c n)
    (hbytes : ∀ x < v.clusterSize, i * v.clusterSize + x < len →
      chainByte v t [c] x = buffer (i * v.clusterSize + x))
    (h : Grows v buffer len (i + 1) n ns t u) : Grows v buffer len i c (n :: ns) s u := by
  have hrelinks : Relinks v c (n :: ns) s u :=
    Relinks.cons hwf hn hne hlinks ⟨h.links_eq, h.fresh, h.nodup⟩
  have hnotin : c ∉ n :: ns := (List.nodup_cons.mp hrelinks.nodup).1
  refine ⟨?_, hrelinks.links_eq, hrelinks.fresh, hrelinks.nodup, ?_⟩
  · apply (halters.mono ?_).trans (h.alters.mono ?_)
    · rintro a (ha | ha)
      · exact Or.inl ha
      · exact Or.inr ⟨c, List.mem_cons_self, ha⟩
    · rintro a (ha | ⟨x, hx, ha⟩)
      · exact Or.inl ha
      · exact Or.inr ⟨x, List.mem_cons_of_mem _ hx, ha⟩
  · intro x hx hin
    by_cases hfirst : x < v.clusterSize
    · rw [chainByte_cons_lt u c _ hfirst, h.alters.data, ← chainByte_cons_lt t c [] hfirst,
        hbytes x hfirst hin]
      have hregion : ClusterRegion v c (clusterAddress v c (x / v.bytesPerSector)) :=
        ⟨_, Nat.div_lt_of_lt_mul hfirst, rfl⟩
      rintro (ha | ⟨y, hy, ha⟩)
      · exact not_tableRegion_cluster hregion ha
      · have hy2 : 2 ≤ y := by
          rcases List.mem_cons.mp hy with rfl | hy
          · exact hn.1
          · exact (h.fresh y hy).1
        exact hnotin (clusterRegion_unique hlow hy2 hregion ha ▸ hy)
    · have hle : v.clusterSize ≤ x := Nat.le_of_not_lt hfirst
      have hindex : i * v.clusterSize + x = (i + 1) * v.clusterSize + (x - v.clusterSize) := by
        rw [Nat.succ_mul]
        omega
      rw [chainByte_cons_ge u c _ hle, hindex]
      apply h.bytes
      · rw [List.length_cons, Nat.succ_mul] at hx
        omega
      · omega

section Loop

variable {v : Volume} (hdev : v.AlwaysSucceeds) (hwf : v.WellFormed)
include hdev hwf

/-- One cluster of the file is filled. -/
theorem writeSectors_cluster (buffer : Bytes) (hlen : len < 2 ^ 32) (hcluster : IsCluster v cluster)
    (hi : i * v.clusterSize < 2 ^ 32) (s : State) :
    ∃ t, (writeSectors v buffer len (clusterToSector v cluster) (wrap32 (i * v.clusterSize))
          v.sectorsPerCluster 0 (wrap32 (i * v.sectorsPerCluster * v.bytesPerSector))).run s =
        .ok (some (wrap32 ((i + 1) * v.sectorsPerCluster * v.bytesPerSector))) t ∧
      Alters (ClusterRegion v cluster) s t ∧ t.startSearchCluster = s.startSearchCluster ∧
      ∀ (l : List ℕ), ∀ x < v.clusterSize, i * v.clusterSize + x < len →
        chainByte v t (cluster :: l) x = buffer (i * v.clusterSize + x) := by
  obtain ⟨t, hrun, halters, hstart, hbytes⟩ := writeSectors_bytes hdev hwf buffer hlen hcluster
    (clusterBase_eq hi) (Nat.le_of_eq (Nat.zero_add _)) s
  rw [show i * v.sectorsPerCluster + v.sectorsPerCluster = (i + 1) * v.sectorsPerCluster from
    (Nat.succ_mul _ _).symm] at hrun
  refine ⟨t, hrun, halters.mono ?_, hstart, fun l x hx hin => ?_⟩
  · rintro a ⟨k, -, hk, rfl⟩
    exact ⟨k, hk, rfl⟩
  · have hk : x / v.bytesPerSector < v.sectorsPerCluster := Nat.div_lt_of_lt_mul hx
    have hindex : (i * v.sectorsPerCluster + x / v.bytesPerSector) * v.bytesPerSector +
        x % v.bytesPerSector = i * v.clusterSize + x := by
      rw [Nat.add_mul, Nat.add_assoc, Nat.div_add_mod', Geometry.clusterSize,
        Nat.mul_comm v.bytesPerSector, Nat.mul_assoc]
    have hbyte := hbytes _ hk _ (Nat.mod_lt x v.bytesPerSector_pos) (by rw [hindex]; exact hin)
    rw [hindex, Nat.zero_add] at hbyte
    rw [chainByte_cons_lt t cluster l hx, hbyte]

/-- The loop of `WriteFile` over the clusters from number `i` on: unless an allocation fails, it
makes a new chain and fills it. -/
theorem writeClusters_grows (hwhole : WholeEntries v) (buffer : Bytes) (hlen : len < 2 ^ 32)
    (hlow : 2 ≤ cluster) (hhigh : cluster ≤ v.totalClusters)
    (hsmall : (i + n - 1) * v.clusterSize < 2 ^ 32) (hstart : 2 ≤ s.startSearchCluster)
    (hused : links v s cluster ≠ 0) :
    ∃ r t, (writeClusters v buffer len n i cluster
        (wrap32 (i * v.sectorsPerCluster * v.bytesPerSector))).run s = .ok r t ∧
      Traces (fun _ => True) s t ∧
      (Event.allocated 0 ∉ eventsSince s t → r = true ∧ 2 ≤ t.startSearchCluster ∧
        ∃ ns, ns.length = n ∧ Grows v buffer len i cluster ns s t) := by
  induction n generalizing i cluster s with
  | zero =>
    refine ⟨true, s, rfl, Traces.refl _ s, fun _ => ⟨rfl, hstart, [], rfl, ?_⟩⟩
    exact ⟨Alters.refl _ s, rfl, by simp, by simp, by simp⟩
  | succ n ih =>
    have hi : i * v.clusterSize < 2 ^ 32 :=
      lt_of_le_of_lt (Nat.mul_le_mul_right _ (by omega)) hsmall
    have hsmall' : (i + 1 + n - 1) * v.clusterSize < 2 ^ 32 := by
      rwa [show i + 1 + n - 1 = i + (n + 1) - 1 by omega]
    obtain ⟨t, hrun, halters, hstart', hbytes⟩ := writeSectors_cluster hdev hwf buffer hlen
      ⟨hlow, by omega⟩ hi s
    obtain ⟨new, t₁, halloc, halters₁, hevent, hnew⟩ := allocateCluster_run hwf hwhole hdev
      (hstart'.symm ▸ hstart : 2 ≤ t.startSearchCluster)
    have hlinks : links v t = links v s :=
      hwf.links_eq fun a ha => halters.data a fun hc => not_tableRegion_cluster hc ha
    rw [writeClusters, bind_of_ok hrun]
    rw [bind_of_ok halloc]
    by_cases hzero : new = 0
    · obtain ⟨_, t₂, htable⟩ := total_writeTable v cluster new t₁
      have hquiet := keepsQuiet_writeTable v cluster new t₁
      rw [htable] at hquiet
      obtain ⟨r, u, hrun', htr, -⟩ := writeClusters_run v buffer len n (i + 1) new hsmall' t₂
      rw [bind_of_ok htable]
      have hrest : Traces (fun _ => True) t₁ u :=
        (hquiet.mono fun _ _ => trivial).trans (htr.mono fun _ _ => trivial)
      have hfirst : Traces (fun _ => True) s t := halters.trace.mono fun _ _ => trivial
      have hsecond : Traces (fun _ => True) t t₁ := halters₁.trace.mono fun _ _ => trivial
      refine ⟨r, u, hrun', (hfirst.trans hsecond).trans hrest, fun hnone => absurd ?_ hnone⟩
      rw [(hfirst.trans hsecond).eventsSince_append hrest, hfirst.eventsSince_append hsecond, ← hzero]
      exact List.mem_append_right _ (List.mem_append_left _ hevent)
    · obtain ⟨hlow', hhigh', hfree, hcursor, hlinks₁⟩ := hnew hzero
      have hlt := hwf.clusters_lt
      obtain ⟨t₂, htable, halters₂, hstart₂, hlinks₂⟩ := writeTable_run hwf hwhole hdev hlow hhigh
        (show new ≤ v.clusterEnd by omega) t₁
      rw [hlinks] at hfree hlinks₁
      rw [hlinks₁] at hlinks₂
      have hne : new ≠ cluster := fun heq => hused (heq ▸ hfree)
      have hused₂ : links v t₂ new ≠ 0 := by
        rw [hlinks₂, Function.update_of_ne hne, Function.update_self]
        omega
      obtain ⟨r, u, hrun', htr, hgrows⟩ := ih hlow' (by omega) hsmall'
        (show 2 ≤ t₂.startSearchCluster by omega) hused₂
      rw [bind_of_ok htable]
      have hstep : Alters (fun a => TableRegion v a ∨ ClusterRegion v cluster a) s t₂ :=
        ((halters.mono fun _ => Or.inr).trans (halters₁.mono fun _ => Or.inl)).trans
          (halters₂.mono fun _ => Or.inl)
      have hsteps : Traces (fun _ => True) s t₂ := hstep.trace.mono fun _ _ => trivial
      refine ⟨r, u, hrun', hsteps.trans htr, fun hnone => ?_⟩
      rw [hsteps.eventsSince_append htr, List.mem_append, not_or] at hnone
      obtain ⟨hr, hstart₃, ns, hlength, hgrow⟩ := hgrows hnone.1
      refine ⟨hr, hstart₃, new :: ns, by simp [hlength], ?_⟩
      apply Grows.cons hwf hlow ⟨hlow', hhigh', hfree⟩ hne hstep hlinks₂ _ hgrow
      intro x hx hin
      rw [← hbytes [] x hx hin]
      apply chainByte_congr
      intro c hc a ha
      have htable : ¬ TableRegion v a := not_tableRegion_cluster ha
      rw [halters₂.data a htable, halters₁.data a htable]

end Loop

end Vsos.Fat
