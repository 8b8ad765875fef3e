import Vsos.Fat.Lookup
import Vsos.Fat.Rewriting

/-!
# A file after it was written

`WriteFile` ends by putting the new size and date into the entry of the file. Together with
the new chain this is all that changes: the rest of the tree keeps its links, its entries and
its bytes, so the volume stays sound and every other file is what it was.
-/

namespace Vsos.Fat

open Vsos.Lib

/-- Size and date lie in the last third of an entry, apart from its cluster numbers. -/
theorem rewritten_apply {entry : Bytes} (len date time : ℕ) {i : ℕ}
    (h : i < 22 ∨ i = 26 ∨ i = 27 ∨ 32 ≤ i) : rewritten entry len date time i = entry i := by
  rw [rewritten, Bytes.setU16_of_not_mem (by omega) (by omega), Bytes.setU16_of_not_mem (by omega) (by omega),
    Bytes.setU32_of_not_mem (by omega)]

/-- The first cluster stays. -/
theorem getCluster_rewritten (entry : Bytes) (len date time : ℕ) :
    getCluster (rewritten entry len date time) = getCluster entry := by
  rw [getCluster, getCluster,
    Bytes.u16_congr (rewritten_apply len date time (by omega)) (rewritten_apply len date time (by omega)),
    Bytes.u16_congr (rewritten_apply len date time (by omega)) (rewritten_apply len date time (by omega))]

/-- The new size. -/
theorem fileSize_rewritten (entry : Bytes) {len : ℕ} (hlen : len < 2 ^ 32) (date time : ℕ) :
    fileSize (rewritten entry len date time) = len := by
  have hsize : (rewritten entry len date time).u32 28 = (entry.setU32 28 len).u32 28 := by
    apply Bytes.u32_congr
    intro k hk
    rw [rewritten, Bytes.setU16_of_not_mem (by omega) (by omega),
      Bytes.setU16_of_not_mem (by omega) (by omega)]
  rw [fileSize, hsize, Bytes.u32_setU32, Nat.mod_eq_of_lt hlen]

/-- From `s` to `u` the file at `p` got a new entry and the chain `c :: ns` with the bytes of the
buffer. -/
structure Rewrites (v : Volume) (s u : State) (p : Place) (new : Bytes) (buffer : Bytes) (len c : ℕ)
    (ns : List ℕ) : Prop where
  alters : Alters (fun a => TableRegion v a ∨ (∃ x ∈ c :: ns, ClusterRegion v x a) ∨ a = p.address v) s u
  apart : ¬ TableRegion v (p.address v) ∧ ∀ x ∈ c :: ns, ¬ ClusterRegion v x (p.address v)
  entry : u.data (p.address v) = (s.data (p.address v)).blit p.offset new 32
  links_eq : links v u = relink (links v s) v.clusterEnd c ns
  fresh : ∀ x ∈ ns, 2 ≤ x ∧ x < v.totalClusters ∧ links v s x = 0
  nodup : (c :: ns).Nodup
  length : ns.length = reqClusters v len
  bytes : ∀ x < len, chainByte v u (c :: ns) x = buffer x

/-- `ModifyEntry` replaces the slot of an entry that is still on the disk. -/
theorem modifyEntry_run {v : Volume} (hdev : v.AlwaysSucceeds)
    (hwf : v.WellFormed) {entry : FATEntryInfo} {s : State}
    (hentry : entry.entry = slotOf v s entry.place) (haligned : entry.place.Aligned v)
    (haddress : Addressable v entry.sector) (new : Bytes) :
    ∃ t, (modifyEntry v entry new).run s = .ok true t ∧
      Alters (· = entry.place.address v) s t ∧ t.startSearchCluster = s.startSearchCluster ∧
      t.data (entry.place.address v) =
        (s.data (entry.place.address v)).blit entry.place.offset new 32 := by
  have hle : entry.offsetInSector + 32 ≤ v.bytesPerSector := haligned.le
  have hlba : lba v entry.sector 0 = entry.place.address v := lba_of_addressable haddress
  have hsame : entry.entry.same ((blockAt v s (entry.place.address v)).shift entry.offsetInSector) 32 =
      true := by
    rw [Bytes.same_eq_true]
    intro i hi
    rw [Bytes.shift_apply, hwf.blockAt_apply s _ (by omega), hentry, slotOf, slotAt, if_pos hi]
    rfl
  have hbuffer : getReadBuffer.run (s.afterRead v (entry.place.address v)) =
      .ok (blockAt v s (entry.place.address v)) (s.afterRead v (entry.place.address v)) := rfl
  rw [modifyEntry, hlba, bind_of_ok (readSector_run hdev.1 _ s), if_neg (by simp), bind_of_ok hbuffer,
    if_neg (by rw [hsame]; simp), bind_of_ok (modifyReadBuffer_run _ _),
    bind_of_ok (writeReadBuffer_run hdev.2 _ _)]
  refine ⟨_, rfl, ⟨fun a ha => Function.update_of_ne ha _ _, ?_⟩, rfl, ?_⟩
  · exact ⟨[.writeSector _, .readSector _], rfl, by simp [Event.Confined]⟩
  · simp only [Function.update_self]
    exact hwf.blit_blockAt s _ hle new

/-- `ModifyEntry` returns. -/
theorem total_modifyEntry (v : Volume) (entry : FATEntryInfo) (new : Bytes) :
    Total (modifyEntry v entry new) := by
  apply Total.bind (fun s => ⟨_, _, rfl⟩)
  intro status
  apply Total.ite (Total.pure _)
  apply Total.bind (fun s => ⟨_, _, rfl⟩)
  intro buffer
  apply Total.ite (Total.pure _)
  apply Total.bind (fun s => ⟨_, _, rfl⟩)
  intro _
  exact Total.bind (fun s => ⟨_, _, rfl⟩) fun _ => Total.pure _

/-- The update of an entry returns. -/
theorem total_updateEntry (v : Volume) (entry : FATEntryInfo) (len : ℕ) :
    Total (updateEntry v entry len) := by
  apply Total.bind (fun s => ⟨_, _, rfl⟩)
  intro date
  apply Total.bind (fun s => ⟨_, _, rfl⟩)
  intro time
  exact Total.bind (total_modifyEntry v _ _) fun _ => Total.pure _

/-- The clusters a write needs hold all of its bytes. -/
theorem le_reqClusters_mul (v : Volume) (len : ℕ) : len ≤ reqClusters v len * v.clusterSize := by
  have hsplit := Nat.div_add_mod' len v.clusterSize
  have hmod := Nat.mod_lt len v.clusterSize_pos
  rw [reqClusters, Nat.add_mul]
  split
  · omega
  · omega

/-- `WriteFile` of an entry that lies outside of the clusters it may touch: unless an allocation
fails, the file is rewritten. -/
theorem writeEntry_rewrites {v : Volume} (hdev : v.AlwaysSucceeds) (hwf : v.WellFormed)
    (hwhole : WholeEntries v) (buffer : Bytes) {len : ℕ} (hlen : len < 2 ^ 32)
    {entry : FATEntryInfo} {s : State} (hstart : 2 ≤ s.startSearchCluster)
    (hlow : 2 ≤ getCluster entry.entry) (hhigh : getCluster entry.entry ≤ v.totalClusters)
    (hused : links v s (getCluster entry.entry) ≠ 0)
    (hentry : entry.entry = slotOf v s entry.place) (haligned : entry.place.Aligned v)
    (haddress : Addressable v entry.sector) (htable : ¬ TableRegion v (entry.place.address v))
    (hapart : ∀ x, 2 ≤ x → x = getCluster entry.entry ∨ links v s x = 0 →
      ¬ ClusterRegion v x (entry.place.address v)) :
    ∃ r u, (writeEntry v entry buffer len).run s = .ok r u ∧ Traces (fun _ => True) s u ∧
      (Event.allocated 0 ∉ eventsSince s u → r = 0 ∧ 2 ≤ u.startSearchCluster ∧
        ∃ ns date time, Rewrites v s u entry.place (rewritten entry.entry len date time) buffer len
          (getCluster entry.entry) ns) := by
  have hsmall : (0 + reqClusters v len - 1) * v.clusterSize < 2 ^ 32 := by
    rw [Nat.zero_add]
    exact lt_of_le_of_lt (reqClusters_start_le v len) hlen
  obtain ⟨r, t, hrun, htraces, hgrows⟩ := writeClusters_grows hdev hwf hwhole buffer hlen hlow hhigh
    hsmall hstart hused
  rw [Nat.zero_mul, Nat.zero_mul, show wrap32 0 = 0 from rfl] at hrun
  obtain ⟨r', u', hrun'⟩ : ∃ r' u', (if r = false then pure (-1) else updateEntry v entry len).run t =
      .ok r' u' := Total.ite (Total.pure _) (total_updateEntry v entry len) t
  have htraces' : Traces (fun _ => True) t u' := by
    have hquiet : Quiet t (final ((if r = false then pure (-1) else updateEntry v entry len).run t)) :=
      Keeps.ite (fun _ => .pure _) (fun _ => keepsQuiet_updateEntry v entry len) t
    rw [hrun'] at hquiet
    exact hquiet.mono fun _ _ => trivial
  refine ⟨r', u', (bind_of_ok hrun).trans hrun', htraces.trans htraces', fun hnone => ?_⟩
  rw [htraces.eventsSince_append htraces', List.mem_append, not_or] at hnone
  obtain ⟨rfl, hstart', ns, hlength, hgrow⟩ := hgrows hnone.2
  have hclusters : ∀ x ∈ getCluster entry.entry :: ns, ¬ ClusterRegion v x (entry.place.address v) := by
    intro x hx
    rcases List.mem_cons.mp hx with rfl | hx
    · exact hapart _ hlow (Or.inl rfl)
    · exact hapart x (hgrow.fresh x hx).1 (Or.inr (hgrow.fresh x hx).2.2)
  have hkept : t.data (entry.place.address v) = s.data (entry.place.address v) := by
    apply hgrow.alters.data
    rintro (h | ⟨x, hx, h⟩)
    · exact htable h
    · exact hclusters x hx h
  have hentry' : entry.entry = slotOf v t entry.place := by
    rw [hentry, slotOf, slotOf, hkept]
  obtain ⟨date, hdate⟩ : ∃ date, (fatDate v).run t = .ok date t := ⟨_, rfl⟩
  obtain ⟨time, htime⟩ : ∃ time, (fatTime v).run t = .ok time t := ⟨_, rfl⟩
  obtain ⟨u, hmodify, halters, hcursor, hdata⟩ := modifyEntry_run hdev hwf hentry'
    haligned haddress (rewritten entry.entry len date time)
  have hupdate : (updateEntry v entry len).run t = .ok 0 u := by
    rw [updateEntry, bind_of_ok hdate, bind_of_ok htime, bind_of_ok hmodify]
    rfl
  simp only [Bool.true_eq_false, if_false] at hrun'
  rw [hupdate] at hrun'
  injection hrun' with hr hu
  subst hr hu
  refine ⟨rfl, by omega, ns, date, time, ?_, ⟨htable, hclusters⟩, ?_, ?_, hgrow.fresh, hgrow.nodup,
    hlength, ?_⟩
  · apply (hgrow.alters.mono ?_).trans (halters.mono ?_)
    · rintro a (h | h)
      · exact Or.inl h
      · exact Or.inr (Or.inl h)
    · rintro a rfl
      exact Or.inr (Or.inr rfl)
  · rw [hdata, hkept]
  · rw [← hgrow.links_eq]
    apply hwf.links_eq
    intro a ha
    apply halters.data
    rintro rfl
    exact htable ha
  · intro x hx
    have hbyte := hgrow.bytes x (by rw [hlength]; exact lt_of_lt_of_le hx (le_reqClusters_mul v len))
      (by omega)
    rw [Nat.zero_mul, Nat.zero_add] at hbyte
    rw [← hbyte]
    apply chainByte_congr
    intro c hc a ha
    apply halters.data
    rintro rfl
    exact hclusters c hc ha

end Vsos.Fat
