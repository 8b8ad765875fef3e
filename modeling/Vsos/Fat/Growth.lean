import Vsos.Fat.Tree

/-!
# Chains that grow

A directory without room gets another cluster: `AllocateCluster` marks a free one, `ClearCluster`
fills it with zeros and `WriteTable` links it behind the last cluster of the directory. On a
table of whole entries this appends the cluster to the chain and changes no other link.
-/

namespace Vsos.Fat

open Vsos.Lib

variable {v : Volume} {s t u : State} {c : ℕ} {ns : List ℕ} {p : Place}

/-- The new clusters are appended to the chain. -/
theorem Relinks.fileChain (hwf : v.WellFormed) {first : ℕ} {xs : List ℕ} (h : Relinks v c ns s t)
    (hl : FileChain v s first (xs ++ [c])) :
    FileChain v t first (xs ++ c :: ns) := by
  have hlt := hwf.clusters_lt
  have hrange := hl.isCluster
  have hrange' : ∀ x ∈ xs ++ c :: ns, IsCluster v x := by
    intro x hx
    rcases List.mem_append.mp hx with hx | hx
    · exact hrange x (List.mem_append_left _ hx)
    · rcases List.mem_cons.mp hx with rfl | hx
      · exact hrange x (by simp)
      · obtain ⟨hlow, hhigh, -⟩ := h.fresh x hx
        exact ⟨hlow, by omega⟩
  cases ns with
  | nil =>
    refine hl.congr fun x _ => ?_
    rw [h.links_eq]
    rfl
  | cons n ns =>
    have hwalk : Walks (links v s) (v.clusterEnd ≤ ·) first (xs ++ [c]) := by
      rcases hl with ⟨-, hnil⟩ | hl
      · simp at hnil
      · exact hl.1.congr fun x hx => links_of_le s (hrange x hx).2
    have hkept : ∀ x ∈ xs, links v t x = links v s x := by
      intro x hx
      have hused := hl.links_ne_zero hwf (List.mem_append_left _ hx)
      rw [h.links_eq]
      apply relink_of_not_mem
      intro hmem
      rcases List.mem_cons.mp hmem with rfl | hmem
      · have hnodup := hwalk.nodup
        rw [List.nodup_append] at hnodup
        exact hnodup.2.2 x hx x (by simp) rfl
      · exact hused (h.fresh x hmem).2.2
    have hrest : Walks (links v t) (v.clusterEnd ≤ ·) c (c :: n :: ns) := by
      rw [h.links_eq]
      apply walks_relink (by simp) h.nodup (le_refl _)
      intro x hx
      have := (hrange' x (List.mem_append_right _ hx)).2
      omega
    exact Or.inr ⟨(hwalk.splice hkept hrest).congr fun x hx => (links_of_le t (hrange' x hx).2).symm,
      hrange'⟩

section Clear

variable (hwf : v.WellFormed) (hwrite : ∀ h a, v.writeStatus h a = 0)
include hwf hwrite

/-- The loop of `ClearCluster` writes the buffered zeros to the sectors from `i` on. -/
theorem clearLoop_run (hc : IsCluster v c) {n i : ℕ} (hn : i + n = v.sectorsPerCluster)
    (hzero : ∀ k < v.bytesPerSector, s.readBuffer k = 0) :
    ∃ t, (clearLoop v (clusterToSector v c) n i).run s = .ok () t ∧
      Alters (fun a => ∃ j, i ≤ j ∧ j < v.sectorsPerCluster ∧ a = clusterAddress v c j) s t ∧
      t.startSearchCluster = s.startSearchCluster ∧
      ∀ j, i ≤ j → j < v.sectorsPerCluster → ∀ k < v.bytesPerSector,
        t.data (clusterAddress v c j) k = 0 := by
  induction n generalizing i s with
  | zero => exact ⟨s, rfl, Alters.refl _ s, rfl, fun j hj hj' => by omega⟩
  | succ n ih =>
    have haddress : lba v (clusterToSector v c) i = clusterAddress v c i :=
      hwf.lba_cluster hc (by omega)
    rw [clearLoop, haddress, bind_of_ok (writeReadBuffer_run hwrite _ s)]
    have hfirst := keepsAlters_writeReadBuffer v (· = clusterAddress v c i) rfl s
    rw [writeReadBuffer_run hwrite] at hfirst
    obtain ⟨t, hrun, halters, hstart, hcleared⟩ := ih (i := i + 1)
      (s := { s with
        data := Function.update s.data (clusterAddress v c i)
          ((s.data (clusterAddress v c i)).blit 0 s.readBuffer v.blockSize)
        trace := .writeSector (clusterAddress v c i) :: s.trace }) (by omega) hzero
    refine ⟨t, hrun, (hfirst.mono ?_).trans (halters.mono ?_), hstart, fun j hj hj' k hk => ?_⟩
    · rintro a rfl
      exact ⟨i, le_refl i, by omega, rfl⟩
    · rintro a ⟨j, hj, hj', rfl⟩
      exact ⟨j, by omega, hj', rfl⟩
    · rcases Nat.lt_or_ge i j with hlt | hge
      · exact hcleared j hlt hj' k hk
      · obtain rfl : j = i := by omega
        rw [halters.data]
        · simp only [Function.update_self]
          rw [Bytes.blit_of_mem (Nat.zero_le _) (by rw [hwf.blockSize_eq]; omega)]
          exact hzero k hk
        · rintro ⟨j', hlt, -, heq⟩
          simp only [clusterAddress] at heq
          omega

/-- `ClearCluster` fills the sectors of a cluster with zeros. -/
theorem clearCluster_run (hc : IsCluster v c) (s : State) :
    ∃ t, (clearCluster v c).run s = .ok () t ∧ Alters (ClusterRegion v c) s t ∧
      t.startSearchCluster = s.startSearchCluster ∧
      ∀ a, ClusterRegion v c a → ∀ k < v.bytesPerSector, t.data a k = 0 := by
  obtain ⟨t, hrun, halters, hstart, hcleared⟩ := clearLoop_run hwf hwrite hc (Nat.zero_add _)
    (s := { s with readBuffer := s.readBuffer.fill 0 v.bytesPerSector })
    (fun k hk => if_pos hk)
  refine ⟨t, ?_, ?_, hstart, ?_⟩
  · rw [clearCluster, bind_of_ok (modifyReadBuffer_run _ s), hrun]
  · refine Alters.trans (t := { s with readBuffer := s.readBuffer.fill 0 v.bytesPerSector })
      ⟨fun _ _ => rfl, Traces.refl _ s⟩ (halters.mono ?_)
    rintro a ⟨j, -, hj, rfl⟩
    exact ⟨j, hj, rfl⟩
  · rintro a ⟨j, hj, rfl⟩ k hk
    exact hcleared j (Nat.zero_le j) hj k hk

end Clear

/-- From `s` to `t` each sector was left as it is or filled with zeros. -/
structure Wipes (v : Volume) (s t : State) : Prop where
  data : ∀ a, t.data a = s.data a ∨ ∀ k < v.bytesPerSector, t.data a k = 0
  start : t.startSearchCluster = s.startSearchCluster
  trace : Traces (fun _ => True) s t

section Wipes

variable (hblock : v.blockSize = v.bytesPerSector) (hwrite : ∀ h a, v.writeStatus h a = 0)
include hblock hwrite

/-- The loop fills sectors with zeros. -/
theorem clearLoop_wipes (sector n i : ℕ) (hzero : ∀ k < v.bytesPerSector, s.readBuffer k = 0) :
    ∃ t, (clearLoop v sector n i).run s = .ok () t ∧ Wipes v s t := by
  induction n generalizing i s with
  | zero => exact ⟨s, rfl, fun _ => Or.inl rfl, rfl, Traces.refl _ s⟩
  | succ n ih =>
    rw [clearLoop, bind_of_ok (writeReadBuffer_run hwrite _ s)]
    obtain ⟨t, hrun, hwipes⟩ := ih (i + 1)
      (s := { s with
        data := Function.update s.data (lba v sector i)
          ((s.data (lba v sector i)).blit 0 s.readBuffer v.blockSize)
        trace := .writeSector (lba v sector i) :: s.trace }) hzero
    refine ⟨t, hrun, fun a => ?_, hwipes.start, ?_⟩
    · rcases hwipes.data a with hkept | hcleared
      · rw [hkept]
        by_cases ha : a = lba v sector i
        · right
          intro k hk
          simp only [ha, Function.update_self]
          rw [Bytes.blit_of_mem (Nat.zero_le _) (by omega)]
          exact hzero k hk
        · left
          exact Function.update_of_ne ha _ _
      · exact Or.inr hcleared
    · exact Traces.trans (Traces.emit trivial rfl) hwipes.trace

/-- `ClearCluster` fills sectors with zeros, also those it finds for a number that is no cluster. -/
theorem clearCluster_wipes (c : ℕ) (s : State) :
    ∃ t, (clearCluster v c).run s = .ok () t ∧ Wipes v s t := by
  obtain ⟨t, hrun, hwipes⟩ := clearLoop_wipes hblock hwrite (clusterToSector v c) v.sectorsPerCluster 0
    (s := { s with readBuffer := s.readBuffer.fill 0 v.bytesPerSector }) (fun k hk => if_pos hk)
  refine ⟨t, ?_, hwipes.data, hwipes.start, hwipes.trace⟩
  rw [clearCluster, bind_of_ok (modifyReadBuffer_run _ s), hrun]

end Wipes

/-- The entry of a cluster is kept or becomes 0. -/
theorem Wipes.links_eq (hwf : v.WellFormed) (hwhole : WholeEntries v) (h : Wipes v s t)
    (hc : c ≤ v.totalClusters) : links v t c = links v s c ∨ links v t c = 0 := by
  have hfits := hwf.entry_fits (hwhole c hc)
  rw [links_of_le t (by omega), links_of_le s (by omega), diskEntry_eq]
  rcases h.data (entryAddress v c) with hkept | hcleared
  · left
    apply decodeEntry_congr
    intro k hk
    rw [tableBytes_add t (by omega), tableBytes_add s (by omega)]
    exact congrFun hkept _
  · right
    have hzero : decodeEntry v c (tableBytes v t) (entryOffset v c) = decodeEntry v c (fun _ => 0) 0 := by
      apply decodeEntry_congr
      intro k hk
      rw [tableBytes_add t (by omega)]
      exact hcleared _ (by omega)
    rw [hzero, decodeEntry]
    cases v.fatType <;> simp [Bytes.u32, Bytes.u16]

/-- From `s` to `t` the directory whose last cluster is `c` got the cleared clusters `ns`. -/
structure Extends (v : Volume) (c : ℕ) (ns : List ℕ) (s t : State) : Prop where
  alters : Alters (fun a => TableRegion v a ∨ ∃ x ∈ ns, ClusterRegion v x a) s t
  relinks : Relinks v c ns s t
  cleared : ∀ x ∈ ns, ∀ a, ClusterRegion v x a → ∀ k < v.bytesPerSector, t.data a k = 0

/-- Reading extends nothing. -/
theorem Extends.of_reads (hwf : v.WellFormed) (c : ℕ) (h : Reads v s t) : Extends v c [] s t where
  alters := h.alters_of_reads _
  relinks := Relinks.nil (hwf.links_eq fun a _ => by rw [h.data])
  cleared := by simp

/-- Reading in front of an extension. -/
theorem Extends.after_reads (hwf : v.WellFormed) (hreads : Reads v s t) (h : Extends v c ns t u) :
    Extends v c ns s u := by
  have hlinks : links v t = links v s := hwf.links_eq fun a _ => by rw [hreads.data]
  exact ⟨(hreads.alters_of_reads _).trans h.alters,
    ⟨by rw [h.relinks.links_eq, hlinks], fun x hx => hlinks ▸ h.relinks.fresh x hx, h.relinks.nodup⟩,
    h.cleared⟩

/-- A directory grows by its first new cluster, and then by the others. -/
theorem Extends.cons (hwf : v.WellFormed) {n : ℕ}
    (hn : 2 ≤ n ∧ n < v.totalClusters ∧ links v s n = 0) (hne : n ≠ c)
    (hlinks : links v t = Function.update (Function.update (links v s) n v.clusterEnd) c n)
    (halters : Alters (fun a => TableRegion v a ∨ ClusterRegion v n a) s t)
    (hcleared : ∀ a, ClusterRegion v n a → ∀ k < v.bytesPerSector, t.data a k = 0)
    (h : Extends v n ns t u) : Extends v c (n :: ns) s u where
  alters := by
    apply (halters.mono ?_).trans (h.alters.mono ?_)
    · rintro a (ha | ha)
      · exact Or.inl ha
      · exact Or.inr ⟨n, List.mem_cons_self, ha⟩
    · rintro a (ha | ⟨x, hx, ha⟩)
      · exact Or.inl ha
      · exact Or.inr ⟨x, List.mem_cons_of_mem _ hx, ha⟩
  relinks := h.relinks.cons hwf hn hne hlinks
  cleared := by
    intro x hx a ha k hk
    by_cases hin : x ∈ ns
    · exact h.cleared x hin a ha k hk
    · obtain rfl : x = n := (List.mem_cons.mp hx).resolve_right hin
      rw [h.alters.data a, hcleared a ha k hk]
      rintro (htable | ⟨y, hy, ha'⟩)
      · exact not_tableRegion_cluster ha htable
      · exact hin (clusterRegion_unique hn.1 (h.relinks.fresh y hy).1 ha ha' ▸ hy)

/-- A slot in a sector that is not altered. -/
theorem slotOf_of_alters {A : ℕ → Prop} (h : Alters A s t) (hp : ¬ A (p.address v)) :
    slotOf v t p = slotOf v s p := by
  rw [slotOf, slotOf, h.data _ hp]

/-- The slots that a directory had are kept. -/
theorem Extends.slotOf_old {l : List ℕ} (h : Extends v c ns s t) (hl : ∀ x ∈ l, 2 ≤ x ∧ x ∉ ns)
    (hp : p ∈ chainPlaces v l) :
    slotOf v t p = slotOf v s p := by
  obtain ⟨⟨x, hx, hregion⟩, -⟩ := of_mem_chainPlaces hp
  apply slotOf_of_alters h.alters
  rintro (htable | ⟨y, hy, hregion'⟩)
  · exact not_tableRegion_cluster hregion htable
  · have heq := clusterRegion_unique (hl x hx).1 (h.relinks.fresh y hy).1 hregion hregion'
    exact (hl x hx).2 (heq ▸ hy)

/-- The slots that a directory got are zeros. -/
theorem Extends.slotOf_new (h : Extends v c ns s t) (hp : p ∈ chainPlaces v ns) :
    slotOf v t p = fun _ => 0 := by
  obtain ⟨⟨x, hx, hregion⟩, haligned⟩ := of_mem_chainPlaces hp
  have hle := haligned.le
  funext i
  rw [slotOf, slotAt]
  split
  · exact h.cleared x hx _ hregion _ (by omega)
  · rfl

/-- One step of growth: unless the allocation fails, the last cluster of a directory is led on to a
cleared one. -/
theorem grow_run (hdev : v.AlwaysSucceeds) (hwf : v.WellFormed) (hwhole : WholeEntries v)
    (hlow : 2 ≤ c) (hhigh : c ≤ v.totalClusters) (hstart : 2 ≤ s.startSearchCluster)
    (hused : links v s c ≠ 0) :
    ∃ n t, (allocateCluster v).run s = .ok n t ∧ Traces (fun _ => True) s t ∧
      Event.allocated n ∈ eventsSince s t ∧
      (n ≠ 0 → ∃ t₁ t₂, (clearCluster v n).run t = .ok () t₁ ∧ (writeTable v c n).run t₁ = .ok () t₂ ∧
        2 ≤ t₂.startSearchCluster ∧ (2 ≤ n ∧ n < v.totalClusters ∧ links v s n = 0) ∧ n ≠ c ∧
        links v t₂ = Function.update (Function.update (links v s) n v.clusterEnd) c n ∧
        Alters (fun a => TableRegion v a ∨ ClusterRegion v n a) s t₂ ∧
        ∀ a, ClusterRegion v n a → ∀ k < v.bytesPerSector, t₂.data a k = 0) := by
  obtain ⟨n, t, halloc, halters, hevent, hnew⟩ := allocateCluster_run hwf hwhole hdev hstart
  refine ⟨n, t, halloc, halters.trace.mono fun _ _ => trivial, hevent, fun hne => ?_⟩
  obtain ⟨hn, hn', hfree, hcursor, hlinks⟩ := hnew hne
  have hcn : n ≠ c := fun heq => hused (heq ▸ hfree)
  have hlt := hwf.clusters_lt
  obtain ⟨t₁, hclear, halters₁, hstart₁, hcleared⟩ := clearCluster_run hwf hdev.2 ⟨hn, by omega⟩ t
  have hlinks₁ : links v t₁ = links v t :=
    hwf.links_eq fun a ha => halters₁.data a fun hc => not_tableRegion_cluster hc ha
  obtain ⟨t₂, htable, halters₂, hstart₂, hlinks₂⟩ := writeTable_run hwf hwhole hdev hlow hhigh
    (show n ≤ v.clusterEnd by omega) t₁
  refine ⟨t₁, t₂, hclear, htable, by omega, ⟨hn, hn', hfree⟩, hcn, ?_, ?_, ?_⟩
  · rw [hlinks₂, hlinks₁, hlinks]
  · exact ((halters.mono fun _ => Or.inl).trans (halters₁.mono fun _ => Or.inr)).trans
      (halters₂.mono fun _ => Or.inl)
  · intro a ha k hk
    rw [halters₂.data a (not_tableRegion_cluster ha), hcleared a ha k hk]

end Vsos.Fat
