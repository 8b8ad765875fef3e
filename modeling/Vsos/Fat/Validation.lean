import Vsos.Fat.Initialize
import Vsos.Fat.ReadBounds

/-!
# What mounting checks

`FAT::Initialize` takes the geometry from the boot sector as it is. It divides by two of its fields,
and subtracts the sectors in front of the data region from the sectors of the volume in 32 bits. If
that difference does not wrap, all clusters lie in the data region.
-/

namespace Vsos.Fat

open Vsos.Lib

/-- The boot sector that `Initialize` reads. -/
def bootSector (d : Device) (start_lba : UInt32) (stack : Bytes) (s : State) : FAT32BPB :=
  .ofBytes (stack.blit 0 (s.data start_lba.toNat) d.blockSize)

/-- The members of a volume of `totalSectors` sectors fit together. -/
structure ValidGeometry (v : Volume) (totalSectors : ℕ) : Prop where
  bytesPerSector : 512 ≤ v.bytesPerSector
  sectorsPerCluster : 1 ≤ v.sectorsPerCluster
  firstDataSector : v.firstDataSector ≤ totalSectors
  clusters : ∀ c, 2 ≤ c → c ≤ v.totalClusters + 1 →
    v.firstDataSector ≤ clusterToSector v c ∧
      clusterToSector v c + v.sectorsPerCluster ≤ totalSectors

/-- `Initialize` does not divide by 0, and a volume that it mounts has a valid geometry. -/
def Validates (d : Device) (start_lba : UInt32) (stack heap : Bytes) (s : State) : Prop :=
  (∀ t, (fatInitialize d start_lba stack heap).run s ≠ .error .fault t) ∧
    ∀ v t, (fatInitialize d start_lba stack heap).run s = .ok (some v) t →
      ValidGeometry v (bootSector d start_lba stack s).totalSectors

/-- The sector for `fsInfo` is delivered, if the volume has one. -/
def InfoDelivered (d : Device) (start_lba : UInt32) (s : State) (bpb : FAT32BPB) : Prop :=
  bpb.fatType = .FAT32 → 0 < bpb.fsInfoSector.toNat →
    d.readStatus (.readSector start_lba.toNat :: s.trace)
      (wrap64 (start_lba.toNat + bpb.fsInfoSector.toNat)) = 0

section Bounds

variable {v : Volume} {totalSectors : ℕ}

/-- The clusters of a volume whose data region does not wrap lie in that region. -/
theorem clusterToSector_bounds (hfirst : v.firstDataSector ≤ totalSectors)
    (htotal : totalSectors < 2 ^ 32)
    (hclusters : v.totalClusters = (totalSectors - v.firstDataSector) / v.sectorsPerCluster) {c : ℕ}
    (hlow : 2 ≤ c) (hhigh : c ≤ v.totalClusters + 1) :
    v.firstDataSector ≤ clusterToSector v c ∧
      clusterToSector v c + v.sectorsPerCluster ≤ totalSectors := by
  have hsub : sub32 c 2 = c - 2 := by
    have := v.totalClusters_lt
    unfold sub32
    omega
  have hfits : (c - 2) * v.sectorsPerCluster + v.sectorsPerCluster ≤
      totalSectors - v.firstDataSector := by
    rw [← Nat.succ_mul]
    calc (c - 2 + 1) * v.sectorsPerCluster
        ≤ v.totalClusters * v.sectorsPerCluster := Nat.mul_le_mul_right _ (by omega)
      _ ≤ totalSectors - v.firstDataSector := by
        rw [hclusters]
        exact Nat.div_mul_le_self _ _
  rw [clusterToSector, hsub, wrap32_of_lt (by omega)]
  omega

end Bounds

namespace FAT32BPB

variable {bpb : FAT32BPB} {start_lba : UInt32} {g : Geometry}

/-- The number of sectors fits its variable. -/
theorem totalSectors_lt (bpb : FAT32BPB) : bpb.totalSectors < 2 ^ 32 := by
  rw [totalSectors]
  split
  · exact bpb.totalSectorsSmall.toNat_lt.trans (by decide)
  · exact bpb.totalSectorsBig.toNat_lt

/-- The two divisions of `Initialize` need a divisor each. -/
theorem geometry_eq_none_iff (start_lba : UInt32) :
    bpb.geometry start_lba = none ↔ bpb.bytesPerSector = 0 ∨ bpb.sectorsPerCluster = 0 := by
  have hsector : bpb.bytesPerSector = 0 ↔ bpb.bytesPerSector.toNat = 0 := UInt16.toNat_inj.symm
  have hcluster : bpb.sectorsPerCluster = 0 ↔ bpb.sectorsPerCluster.toNat = 0 := UInt8.toNat_inj.symm
  rw [geometry, hsector, hcluster]
  split
  · simp
    omega
  · simp
    omega

/-- The geometry that is computed is valid just when sectors are large enough and the data region
begins inside the volume. -/
theorem validGeometry_iff {d : Device} (h : bpb.geometry start_lba = some g) :
    ValidGeometry ⟨g, d⟩ bpb.totalSectors ↔
      512 ≤ bpb.bytesPerSector.toNat ∧ bpb.firstDataSector ≤ bpb.totalSectors := by
  rw [geometry] at h
  split at h
  · next hpos =>
    cases h
    refine ⟨fun hvalid => ⟨hvalid.bytesPerSector, hvalid.firstDataSector⟩, ?_⟩
    rintro ⟨hsector, hfirst⟩
    refine ⟨hsector, hpos.2, hfirst, fun c hlow hhigh => ?_⟩
    refine clusterToSector_bounds hfirst bpb.totalSectors_lt ?_ hlow hhigh
    simp only [totalClusters, sub32_of_le hfirst bpb.totalSectors_lt]
  · cases h

end FAT32BPB

section Runs

variable {d : Device} {start_lba : UInt32} {stack : Bytes} {s : State}

/-- A read into a local buffer. -/
theorem readInto_run (address : ℕ) (dst : Bytes) : (readInto d address dst).run s =
    .ok (if d.readStatus s.trace address = 0 then some (dst.blit 0 (s.data address) d.blockSize)
      else none) { s with trace := .readSector address :: s.trace } := rfl

/-- Without its boot sector the volume is not mounted. -/
theorem fatInitialize_unread (stack heap : Bytes)
    (h : d.readStatus s.trace start_lba.toNat ≠ 0) :
    ∃ t, (fatInitialize d start_lba stack heap).run s = .ok none t := by
  rw [fatInitialize, bind_of_ok (readInto_run _ _), if_neg h]
  exact ⟨_, rfl⟩

/-- A divisor of 0 stops the machine. -/
theorem fatInitialize_fault (heap : Bytes) (h : d.readStatus s.trace start_lba.toNat = 0)
    (hnone : (bootSector d start_lba stack s).geometry start_lba = none) :
    ∃ t, (fatInitialize d start_lba stack heap).run s = .error .fault t := by
  rw [bootSector] at hnone
  rw [fatInitialize, bind_of_ok (readInto_run _ _), if_pos h]
  simp only [hnone]
  exact ⟨_, rfl⟩

/-- The start of the search is known just when the sector for it is delivered, if there is one. -/
theorem readFSInfo_run (g : Geometry) (fsInfoSector : ℕ) (s : State) :
    ∃ start t, (readFSInfo d g fsInfoSector).run s = .ok start t ∧
      (start ≠ none ↔ (g.fatType = .FAT32 → 0 < fsInfoSector →
        d.readStatus s.trace (wrap64 (g.startLBA + fsInfoSector)) = 0)) := by
  rw [readFSInfo]
  by_cases hinfo : g.fatType = .FAT32 ∧ 0 < fsInfoSector
  · rw [if_pos hinfo, bind_of_ok (readInto_run _ _)]
    by_cases hstatus : d.readStatus s.trace (wrap64 (g.startLBA + fsInfoSector)) = 0
    · rw [if_pos hstatus]
      exact ⟨_, _, rfl, by simp [hstatus]⟩
    · rw [if_neg hstatus]
      exact ⟨_, _, rfl, by simp [hstatus, hinfo]⟩
  · rw [if_neg hinfo]
    refine ⟨some 0, s, rfl, ?_⟩
    simp only [ne_eq, reduceCtorEq, not_false_eq_true, true_iff]
    exact fun htype hpos => absurd ⟨htype, hpos⟩ hinfo

/-- A volume with a geometry is mounted if its sector for `fsInfo` can be read. -/
theorem fatInitialize_geometry (heap : Bytes) (h : d.readStatus s.trace start_lba.toNat = 0) {g : Geometry}
    (hsome : (bootSector d start_lba stack s).geometry start_lba = some g) :
    ∃ r t, (fatInitialize d start_lba stack heap).run s = .ok r t ∧
      ∀ v, r = some v ↔ v = ⟨g, d⟩ ∧ InfoDelivered d start_lba s (bootSector d start_lba stack s) := by
  have hmembers : g.startLBA = start_lba.toNat ∧
      g.fatType = (bootSector d start_lba stack s).fatType := by
    rw [FAT32BPB.geometry] at hsome
    split at hsome
    · cases hsome
      exact ⟨rfl, rfl⟩
    · cases hsome
  have hboot : bootSector d start_lba stack s =
    .ofBytes (stack.blit 0 (s.data start_lba.toNat) d.blockSize) := rfl
  rw [fatInitialize, bind_of_ok (readInto_run _ _), if_pos h]
  simp only [← hboot, hsome]
  rw [bind_of_ok (show (modifyReadBuffer fun _ => heap).run _ = .ok () _ from rfl)]
  obtain ⟨start, t, hinfo, hdelivered⟩ :=
    readFSInfo_run g (bootSector d start_lba stack s).fsInfoSector.toNat
      { s with readBuffer := heap, trace := .readSector start_lba.toNat :: s.trace }
  rw [hmembers.1, hmembers.2] at hdelivered
  rw [bind_of_ok hinfo, InfoDelivered, ← hdelivered]
  cases start with
  | none => exact ⟨none, _, rfl, by simp⟩
  | some start => exact ⟨some ⟨g, d⟩, _, rfl, by simp [eq_comm]⟩

end Runs

/-- `Initialize` validates the boot sector just when both divisors are not 0 and, if the volume is
mounted, sectors have 512 bytes or more and the data region begins inside the volume. -/
theorem validates_iff (d : Device) (start_lba : UInt32) (stack heap : Bytes) (s : State) :
    Validates d start_lba stack heap s ↔
      (d.readStatus s.trace start_lba.toNat = 0 →
        (bootSector d start_lba stack s).bytesPerSector ≠ 0 ∧
        (bootSector d start_lba stack s).sectorsPerCluster ≠ 0 ∧
        (InfoDelivered d start_lba s (bootSector d start_lba stack s) →
          512 ≤ (bootSector d start_lba stack s).bytesPerSector.toNat ∧
          (bootSector d start_lba stack s).firstDataSector ≤
            (bootSector d start_lba stack s).totalSectors)) := by
  by_cases hread : d.readStatus s.trace start_lba.toNat = 0
  · rw [Validates, imp_iff_right hread, ← and_assoc, ← not_or,
      ← FAT32BPB.geometry_eq_none_iff start_lba]
    cases hgeometry : (bootSector d start_lba stack s).geometry start_lba with
    | none =>
      obtain ⟨t, hrun⟩ := fatInitialize_fault heap hread hgeometry
      simp [hrun]
    | some g =>
      obtain ⟨r, t, hrun, hmounted⟩ := fatInitialize_geometry heap hread hgeometry
      simp only [hrun, ← FAT32BPB.validGeometry_iff (d := d) hgeometry]
      simp [hmounted]
  · obtain ⟨t, hrun⟩ := fatInitialize_unread stack heap hread
    simp [Validates, hrun, hread]

/-- A boot sector of zeros makes `Initialize` divide by 0. -/
theorem not_validates :
    ¬ ∀ (d : Device) (start_lba : UInt32) (stack heap : Bytes) (s : State), d.blockSize = 512 →
      (∀ trace address, d.readStatus trace address = 0) → Validates d start_lba stack heap s := by
  intro hclaim
  have hvalid := hclaim steadyDevice 0 (fun _ => 0) (fun _ => 0) (mounted fun _ _ => 0) rfl
    fun _ _ => rfl
  exact hvalid.1 _ rfl

end Vsos.Fat
