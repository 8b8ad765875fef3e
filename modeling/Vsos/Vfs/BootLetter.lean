import Vsos.Lib.Places
import Vsos.Lib.Runs
import Vsos.Vfs.Manager

/-!
# The letter of the boot partition

`SearchBootPartition` keeps the place of a file system in the list of those that are mounted. The
list changes, and the place does not follow: it gets wrong with a file system in front of it that
is unmounted, and with one that comes to stand at the place after the boot partition is gone.
-/

namespace Vsos.Vfs

open Vsos.Lib Vsos.Crt
open Vsos.Fat (pathSeperator)

variable {F D : Type} [DecidableEq F] [DecidableEq D]

/-- `Mount`. -/
def mount (vfs : F) : Prog (VFSManager F) Unit :=
  change fun m => { m with filesystems := m.filesystems ++ [vfs] }

/-- `Unmount`. -/
def unmount (vfs : F) : Prog (VFSManager F) Unit :=
  change fun m => { m with filesystems := m.filesystems.filter (· ≠ vfs) }

/-- The loop of `UnmountByDisk` over `count` cells from the place `i` on. It goes on to the end that
the vector had at first: `Unmount` moves the others to the front of the cells, and leaves the ones
behind them as they are. -/
def unmountLoop (disk : F → D) (d : D) : ℕ → ℕ → List F → ℕ → List F
  | 0, _, cells, size => cells.take size
  | count + 1, i, cells, size =>
    match cells[i]? with
    | none => cells.take size
    | some vfs =>
      if disk vfs = d then
        let kept := (cells.take size).filter (· ≠ vfs)
        unmountLoop disk d count (i + 1) (kept ++ cells.drop kept.length) kept.length
      else unmountLoop disk d count (i + 1) cells size

/-- `UnmountByDisk`. -/
def unmountByDisk (disk : F → D) (d : D) : Prog (VFSManager F) Unit :=
  change fun m => { m with
    filesystems := unmountLoop disk d m.filesystems.length 0 m.filesystems m.filesystems.length }

/-- `itoa` of a number in base ten. -/
def itoa (value : ℕ) : List UInt8 := (Nat.toDigits 10 value).map fun c => UInt8.ofNat c.toNat

/-- The loop of `SearchBootPartition`. The number is put in front of the colon, at the end of four
places that there are for it. -/
def searchLoop (hasFile : F → List UInt8 → Bool) : List F → ℕ → List UInt8 → Prog (VFSManager F) Bool
  | [], _, _ => return false
  | vfs :: rest, i, pathString => do
    let idStr := itoa i
    ensure (idStr.length ≤ 4)
    let start := 4 - idStr.length
    let pathString := pathString.take start ++ idStr ++ pathString.drop 4
    if hasFile vfs (pathString.drop (start + 3)) then do
      change fun m => { m with bootPartitionID := i }
      return true
    else searchLoop hasFile rest (i + 1) pathString

/-- `SearchBootPartition`, with `FileExists` of the file systems. -/
def searchBootPartition (hasFile : F → List UInt8 → Bool) : Prog (VFSManager F) Bool := do
  let filesystems ← look VFSManager.filesystems
  searchLoop hasFile filesystems 0 "####:\\efi\\boot\\vsoskrnl.exe".toUTF8.toList

/-- A change to the list of file systems. -/
inductive ManagerCall (F D : Type) where
  | mount (vfs : F)
  | unmount (vfs : F)
  | unmountByDisk (d : D)
  deriving DecidableEq, Repr

/-- A call, and whether the boot partition is mounted after it. -/
def performCall (disk : F → D) (v₀ : F) : ManagerCall F D → Prog (VFSManager F) Bool
  | .mount vfs => do
    mount vfs
    look fun m => decide (v₀ ∈ m.filesystems)
  | .unmount vfs => do
    unmount vfs
    look fun m => decide (v₀ ∈ m.filesystems)
  | .unmountByDisk d => do
    unmountByDisk disk d
    look fun m => decide (v₀ ∈ m.filesystems)

/-- Whether the boot partition has been unmounted so far. -/
def noteUnmounted (gone : Bool) (_ : ManagerCall F D) (mounted : Bool) : Bool := gone || !mounted

/-- A path on the boot drive goes to the boot partition while that is mounted, and is rejected
after it has been unmounted. The drive alone is left out for `DirectoryExists`, `CreateFile` and
`CreateDirectory`: these answer for it themselves and forward nothing. -/
def FollowsBoot (v₀ : F) (gone : Bool) (m : VFSManager F) : Prop :=
  ∀ (op : Operation) (r tail after : List UInt8), 0 ∉ r → (op.bare.isSome → r ≠ []) →
    if gone then perform op m (0x62 :: colon :: pathSeperator :: r) tail after =
      .ok (.returned op.rejection)
    else ∃ k, perform op m (0x62 :: colon :: pathSeperator :: r) tail after = .ok (.forwarded k r) ∧
      m.filesystems[k]? = some v₀

/-- The letter is right after the call. -/
def KeepsLetter (disk : F → D) (v₀ : F) (gone : Bool) (m : VFSManager F) (call : ManagerCall F D) :
    Prop :=
  ∀ mounted m', (performCall disk v₀ call).run m = .ok mounted m' →
    FollowsBoot v₀ (noteUnmounted gone call mounted) m'

/-- The call does not disturb the place of the boot partition. While it is mounted, nothing in
front of it is unmounted, and it is unmounted itself only as the last one; after that, nothing is
mounted at its place. -/
def Undisturbed (disk : F → D) (v₀ : F) (gone : Bool) (m : VFSManager F) : ManagerCall F D → Prop
  | .mount _ => gone = true → (m.filesystems.length : ℤ) < m.bootPartitionID
  | .unmount vfs => gone = false →
    if vfs = v₀ then ∀ w ∈ m.filesystems.drop m.bootPartitionID.toNat, w = v₀
    else vfs ∉ m.filesystems.take m.bootPartitionID.toNat
  | .unmountByDisk d => gone = false →
    (∀ w ∈ m.filesystems.take m.bootPartitionID.toNat, disk w ≠ d) ∧
      (disk v₀ = d → ∀ w ∈ m.filesystems.drop m.bootPartitionID.toNat, w = v₀)

section Letter

variable {v₀ : F} {m : VFSManager F} {gone : Bool} {id : ℕ} {r tail : List UInt8}

omit [DecidableEq F] in
/-- The letter is read as the number of the boot partition. -/
theorem extractDiskNumber_boot (m : VFSManager F) (r tail : List UInt8) :
    extractDiskNumber m (0x62 :: colon :: pathSeperator :: r) tail = .ok (m.bootPartitionID, 1) := by
  have hcolon : colon ∉ ([0x62] : List UInt8) := by decide
  have hextract := extractDiskNumber_append (q := pathSeperator :: r) m tail hcolon (by simp)
  exact hextract

/-- The boot partition stands at its place, or the list ends in front of it. -/
def Placed (v₀ : F) (gone : Bool) (filesystems : List F) (id : ℕ) : Prop :=
  if gone then filesystems.length ≤ id else filesystems[id]? = some v₀

omit [DecidableEq F] in
/-- The letter is right just when the place is. -/
theorem followsBoot_iff (hid : m.bootPartitionID = id) :
    FollowsBoot v₀ gone m ↔ Placed v₀ gone m.filesystems id := by
  have hforward (hlt : id < m.filesystems.length) (op : Operation) (r tail after : List UInt8)
      (hr : 0 ∉ r) (hbare : op.bare.isSome → r ≠ []) :
      perform op m (0x62 :: colon :: pathSeperator :: r) tail after = .ok (.forwarded id r) := by
    have hextract := extractDiskNumber_boot m r tail
    rw [hid] at hextract
    have hpath : 0 ∉ 0x62 :: colon :: pathSeperator :: r := by
      simp only [List.mem_cons, not_or]
      exact ⟨by decide, by decide, by decide, hr⟩
    rw [perform_of_in_range hextract hlt, if_neg, stringAt_append hpath (by simp)]
    · rfl
    · rintro ⟨hsome, hlength⟩
      exact hbare hsome (List.length_eq_zero_iff.mp (by simpa using hlength))
  have hreject (hle : m.filesystems.length ≤ id) (op : Operation) (r tail after : List UInt8) :
      perform op m (0x62 :: colon :: pathSeperator :: r) tail after = .ok (.returned op.rejection) := by
    refine perform_of_out_of_range (extractDiskNumber_boot m r tail) fun k hk => ?_
    rw [hid]
    omega
  cases gone with
  | true =>
    simp only [FollowsBoot, Placed, if_true]
    constructor
    · intro h
      by_contra hlt
      have hread := h .readFile [] [] [] (by simp) (by decide)
      rw [hforward (by omega) .readFile [] [] [] (by simp) (by decide)] at hread
      cases hread
    · intro hle op r tail after _ _
      exact hreject hle op r tail after
  | false =>
    simp only [FollowsBoot, Placed, Bool.false_eq_true, if_false]
    constructor
    · intro h
      obtain ⟨k, hread, hk⟩ := h .readFile [] [] [] (by simp) (by decide)
      by_cases hlt : id < m.filesystems.length
      · rw [hforward hlt .readFile [] [] [] (by simp) (by decide)] at hread
        cases hread
        exact hk
      · rw [hreject (by omega)] at hread
        cases hread
    · intro hplace op r tail after hr hbare
      obtain ⟨hlt, -⟩ := List.getElem?_eq_some_iff.mp hplace
      exact ⟨id, hforward hlt op r tail after hr hbare, hplace⟩

end Letter

section Loop

variable {disk : F → D} {d : D} {count i size : ℕ} {cells : List F} {v : F}

/-- The loop removes file systems of the disk, and the one that it meets first. -/
theorem unmountLoop_eq (disk : F → D) (d : D) (count i : ℕ) (cells : List F) (size : ℕ) :
    ∃ removed : List F, (∀ v ∈ removed, disk v = d) ∧
      (0 < count → ∀ v ∈ cells[i]?, disk v = d → v ∈ removed) ∧
      unmountLoop disk d count i cells size = (cells.take size).filter (· ∉ removed) := by
  induction count generalizing i cells size with
  | zero => exact ⟨[], by simp, by simp, by simp [unmountLoop]⟩
  | succ count ih =>
    rw [unmountLoop]
    cases hv : cells[i]? with
    | none => exact ⟨[], by simp, by simp, by simp⟩
    | some v =>
      simp only [Option.mem_def, Option.some.injEq, forall_eq']
      by_cases hd : disk v = d
      · rw [if_pos hd]
        obtain ⟨removed, hremoved, -, heq⟩ := ih (i + 1)
          ((cells.take size).filter (· ≠ v) ++ cells.drop ((cells.take size).filter (· ≠ v)).length)
          ((cells.take size).filter (· ≠ v)).length
        refine ⟨v :: removed, List.forall_mem_cons.mpr ⟨hd, hremoved⟩, by simp, ?_⟩
        rw [heq, List.take_left, List.filter_filter]
        refine List.filter_congr fun w _ => ?_
        simp [Bool.and_comm]
      · rw [if_neg hd]
        obtain ⟨removed, hremoved, -, heq⟩ := ih (i + 1) cells size
        exact ⟨removed, hremoved, fun _ h => absurd h hd, heq⟩

/-- The loop passes over the file systems of other disks. -/
theorem unmountLoop_skip {k : ℕ} (hk : i + k ≤ cells.length)
    (hfront : ∀ j < k, ∀ w ∈ cells[i + j]?, disk w ≠ d) :
    unmountLoop disk d (k + count) i cells size = unmountLoop disk d count (i + k) cells size := by
  induction k generalizing i with
  | zero => rw [Nat.zero_add, Nat.add_zero]
  | succ k ih =>
    have hi : i < cells.length := by omega
    have hget : cells[i]? = some cells[i] := List.getElem?_eq_getElem hi
    have hfirst := hfront 0 (Nat.zero_lt_succ k) cells[i] hget
    have hrest : ∀ j < k, ∀ w ∈ cells[i + 1 + j]?, disk w ≠ d := by
      intro j hj w hw
      refine hfront (j + 1) (Nat.succ_lt_succ hj) w ?_
      rwa [Nat.add_assoc, Nat.add_comm 1 j] at hw
    rw [Nat.succ_add, unmountLoop, hget]
    simp only
    rw [if_neg hfirst, ih (by omega) hrest, Nat.add_assoc, Nat.add_comm 1 k]

end Loop

section Changes

variable {disk : F → D} {v₀ : F} {m m' : VFSManager F} {gone mounted : Bool} {id : ℕ}
  {call : ManagerCall F D} {filesystems removed : List F}

/-- The list of file systems after a call. -/
def changed (disk : F → D) (filesystems : List F) : ManagerCall F D → List F
  | .mount vfs => filesystems ++ [vfs]
  | .unmount vfs => filesystems.filter (· ≠ vfs)
  | .unmountByDisk d =>
    unmountLoop disk d filesystems.length 0 filesystems filesystems.length

/-- What a call does to the list. -/
theorem performCall_run (disk : F → D) (v₀ : F) (call : ManagerCall F D) (m : VFSManager F) :
    (performCall disk v₀ call).run m = .ok (decide (v₀ ∈ changed disk m.filesystems call))
      { m with filesystems := changed disk m.filesystems call } := by
  cases call <;> rfl

/-- The letter is right after a call just when the place is. -/
theorem keepsLetter_iff (hid : m.bootPartitionID = id) :
    KeepsLetter disk v₀ gone m call ↔
      Placed v₀ (gone || !decide (v₀ ∈ changed disk m.filesystems call))
        (changed disk m.filesystems call) id := by
  let m' : VFSManager F := { m with filesystems := changed disk m.filesystems call }
  have hid' : m'.bootPartitionID = id := hid
  rw [KeepsLetter, performCall_run]
  constructor
  · intro h
    exact (followsBoot_iff hid').mp (h _ _ rfl)
  · intro h mounted t hrun
    cases hrun
    exact (followsBoot_iff hid').mpr h

/-- `Unmount` removes one file system. -/
theorem changed_unmount (disk : F → D) (filesystems : List F) (vfs : F) :
    changed disk filesystems (.unmount vfs) = filesystems.filter (· ∉ [vfs]) := by
  simp [changed]

/-- `UnmountByDisk` removes file systems of the disk. -/
theorem changed_unmountByDisk (disk : F → D) (filesystems : List F) (d : D) :
    ∃ removed : List F, (∀ v ∈ removed, disk v = d) ∧
      changed disk filesystems (.unmountByDisk d) = filesystems.filter (· ∉ removed) := by
  obtain ⟨removed, hremoved, -, heq⟩ := unmountLoop_eq disk d filesystems.length 0 filesystems
    filesystems.length
  refine ⟨removed, hremoved, ?_⟩
  rw [changed, heq, List.take_length]

/-- The first file system of the disk is among them. -/
theorem changed_unmountByDisk_first {d : D} {v : F} (hv : filesystems[id]? = some v)
    (hd : disk v = d) (hfront : ∀ w ∈ filesystems.take id, disk w ≠ d) :
    ∃ removed : List F, (∀ v ∈ removed, disk v = d) ∧ v ∈ removed ∧
      changed disk filesystems (.unmountByDisk d) = filesystems.filter (· ∉ removed) := by
  obtain ⟨hlt, -⟩ := List.getElem?_eq_some_iff.mp hv
  have hskip : ∀ j < id, ∀ w ∈ filesystems[0 + j]?, disk w ≠ d := by
    intro j hj w hw
    refine hfront w (List.mem_iff_getElem?.mpr ⟨j, ?_⟩)
    rwa [List.getElem?_take_of_lt hj, ← Nat.zero_add j]
  have hloop : unmountLoop disk d (id + (filesystems.length - id)) 0 filesystems filesystems.length =
      unmountLoop disk d (filesystems.length - id) (0 + id) filesystems filesystems.length :=
    unmountLoop_skip (by omega) hskip
  rw [Nat.add_sub_cancel' hlt.le, Nat.zero_add] at hloop
  obtain ⟨removed, hremoved, hmet, heq⟩ := unmountLoop_eq disk d (filesystems.length - id) id
    filesystems filesystems.length
  refine ⟨removed, hremoved, hmet (by omega) v hv hd, ?_⟩
  rw [changed, hloop, heq, List.take_length]

/-- What keeps the place of the boot partition. -/
theorem placed_filter_of_front (hplace : filesystems[id]? = some v₀) (hv : v₀ ∉ removed)
    (hfront : ∀ w ∈ filesystems.take id, w ∉ removed) :
    Placed v₀ (!decide (v₀ ∈ filesystems.filter (· ∉ removed))) (filesystems.filter (· ∉ removed))
      id := by
  have hmem : v₀ ∈ filesystems.filter (· ∉ removed) :=
    List.mem_filter.mpr ⟨List.mem_of_getElem? hplace, decide_eq_true hv⟩
  rw [decide_eq_true hmem]
  exact getElem?_filter_of_front hplace (decide_eq_true hv) fun w hw => decide_eq_true (hfront w hw)

/-- What leaves nothing at the place of the boot partition. -/
theorem placed_filter_of_back (hv : v₀ ∈ removed) (hback : ∀ w ∈ filesystems.drop id, w ∈ removed) :
    Placed v₀ (!decide (v₀ ∈ filesystems.filter (· ∉ removed))) (filesystems.filter (· ∉ removed))
      id := by
  have hmem : v₀ ∉ filesystems.filter (· ∉ removed) := by
    intro h
    have hkept := (List.mem_filter.mp h).2
    simp only [decide_eq_true_eq] at hkept
    exact hkept hv
  rw [decide_eq_false hmem]
  exact length_filter_le_of_back fun w hw => by simpa using hback w hw

/-- A call that does not disturb the place keeps the letter right. -/
theorem keepsLetter_of_undisturbed (hid : m.bootPartitionID = id)
    (hplaced : Placed v₀ gone m.filesystems id) (h : Undisturbed disk v₀ gone m call) :
    KeepsLetter disk v₀ gone m call := by
  have htoNat : m.bootPartitionID.toNat = id := by omega
  rw [keepsLetter_iff hid]
  cases gone with
  | true =>
    have hle : m.filesystems.length ≤ id := hplaced
    have hfilter (removed : List F) : (m.filesystems.filter (· ∉ removed)).length ≤ id :=
      (List.length_filter_le _ _).trans hle
    rw [Bool.true_or]
    cases call with
    | mount vfs =>
      have hlt := h rfl
      simp only [Placed, if_true, changed, List.length_append, List.length_singleton]
      omega
    | unmount vfs =>
      rw [changed_unmount]
      exact hfilter [vfs]
    | unmountByDisk d =>
      obtain ⟨removed, -, heq⟩ := changed_unmountByDisk disk m.filesystems d
      rw [heq]
      exact hfilter removed
  | false =>
    have hplace : m.filesystems[id]? = some v₀ := hplaced
    obtain ⟨hlt, -⟩ := List.getElem?_eq_some_iff.mp hplace
    cases call with
    | mount vfs =>
      have hmem : v₀ ∈ m.filesystems ++ [vfs] :=
        List.mem_append_left _ (List.mem_of_getElem? hplace)
      rw [changed, decide_eq_true hmem]
      exact (List.getElem?_append_left hlt).trans hplace
    | unmount vfs =>
      have hcond := h rfl
      rw [htoNat] at hcond
      rw [changed_unmount]
      by_cases hvfs : vfs = v₀
      · rw [if_pos hvfs] at hcond
        exact placed_filter_of_back (by simp [hvfs]) fun w hw => by simp [hvfs, hcond w hw]
      · rw [if_neg hvfs] at hcond
        refine placed_filter_of_front hplace (by simpa using fun heq => hvfs heq.symm) fun w hw => ?_
        rw [List.mem_singleton]
        rintro rfl
        exact hcond hw
    | unmountByDisk d =>
      obtain ⟨hfront, hback⟩ := h rfl
      rw [htoNat] at hfront hback
      by_cases hd : disk v₀ = d
      · obtain ⟨removed, -, hv, heq⟩ := changed_unmountByDisk_first hplace hd hfront
        rw [heq]
        exact placed_filter_of_back hv fun w hw => by rwa [hback hd w hw]
      · obtain ⟨removed, hremoved, heq⟩ := changed_unmountByDisk disk m.filesystems d
        rw [heq]
        exact placed_filter_of_front hplace (fun hv => hd (hremoved v₀ hv)) fun w hw hw' =>
          hfront w hw (hremoved w hw')

/-- Nothing is mounted twice, and the disk of the boot partition is not unmounted as a whole. -/
def Singly (disk : F → D) (v₀ : F) (gone : Bool) (m : VFSManager F) : ManagerCall F D → Prop
  | .mount vfs => vfs ∉ m.filesystems
  | .unmount _ => True
  | .unmountByDisk d => gone = false → disk v₀ ≠ d

/-- Nothing is mounted twice after a call either. -/
theorem nodup_changed (hnodup : m.filesystems.Nodup) (hcall : Singly disk v₀ gone m call) :
    (changed disk m.filesystems call).Nodup := by
  cases call with
  | mount vfs => exact hnodup.append (List.nodup_singleton vfs) (List.disjoint_singleton.mpr hcall)
  | unmount vfs => exact hnodup.filter _
  | unmountByDisk d =>
    obtain ⟨removed, -, heq⟩ := changed_unmountByDisk disk m.filesystems d
    rw [heq]
    exact hnodup.filter _

/-- A boot partition that keeps its place has all file systems in front of it. -/
theorem front_of_placed_filter (hnodup : filesystems.Nodup) (hplace : filesystems[id]? = some v₀)
    (hv : v₀ ∉ removed)
    (h : Placed v₀ (!decide (v₀ ∈ filesystems.filter (· ∉ removed)))
      (filesystems.filter (· ∉ removed)) id) : ∀ w ∈ filesystems.take id, w ∉ removed := by
  have hmem : v₀ ∈ filesystems.filter (· ∉ removed) :=
    List.mem_filter.mpr ⟨List.mem_of_getElem? hplace, decide_eq_true hv⟩
  rw [decide_eq_true hmem] at h
  intro w hw
  simpa using front_of_getElem?_filter hnodup hplace h w hw

omit [DecidableEq F] in
/-- The first file system of a disk in front of a place. -/
theorem exists_first {d : D} {w : F} (hw : w ∈ filesystems.take id) (hd : disk w = d) :
    ∃ i v, filesystems[i]? = some v ∧ v ∈ filesystems.take id ∧ disk v = d ∧
      ∀ u ∈ filesystems.take i, disk u ≠ d := by
  cases hfind : (filesystems.take id).find? (fun v => disk v = d) with
  | none =>
    have hnone := List.find?_eq_none.mp hfind w hw
    simp [hd] at hnone
  | some v =>
    obtain ⟨hv, front, back, heq, hfront⟩ := List.find?_eq_some_iff_append.mp hfind
    have hall : filesystems = front ++ v :: (back ++ filesystems.drop id) := by
      conv_lhs => rw [← List.take_append_drop id filesystems, heq]
      simp
    refine ⟨front.length, v, ?_, List.mem_of_find?_eq_some hfind, by simpa using hv, ?_⟩
    · rw [hall]
      simp
    · rw [hall, List.take_left]
      simpa using hfront

/-- A call that keeps the letter right does not disturb the place. -/
theorem undisturbed_of_keepsLetter (hid : m.bootPartitionID = id)
    (hplaced : Placed v₀ gone m.filesystems id) (hnodup : m.filesystems.Nodup)
    (hcall : Singly disk v₀ gone m call) (h : KeepsLetter disk v₀ gone m call) :
    Undisturbed disk v₀ gone m call := by
  have htoNat : m.bootPartitionID.toNat = id := by omega
  rw [keepsLetter_iff hid] at h
  cases gone with
  | true =>
    cases call with
    | mount vfs =>
      intro _
      simp only [Bool.true_or, Placed, if_true, changed, List.length_append,
        List.length_singleton] at h
      omega
    | unmount vfs => exact fun hgone => by cases hgone
    | unmountByDisk d => exact fun hgone => by cases hgone
  | false =>
    have hplace : m.filesystems[id]? = some v₀ := hplaced
    obtain ⟨hlt, -⟩ := List.getElem?_eq_some_iff.mp hplace
    cases call with
    | mount vfs => exact fun hgone => by cases hgone
    | unmount vfs =>
      intro _
      rw [htoNat]
      rw [changed_unmount] at h
      by_cases hvfs : vfs = v₀
      · rw [if_pos hvfs]
        subst hvfs
        have hmem : vfs ∉ m.filesystems.filter (· ∉ [vfs]) := by simp
        have hfront : ∀ b ∈ m.filesystems.take id, decide (b ∉ [vfs]) = true := by
          intro b hb
          have hback : vfs ∈ m.filesystems.drop id := by
            rw [drop_of_getElem? hplace]
            exact List.mem_cons_self
          simp only [List.mem_singleton, decide_eq_true_eq]
          rintro rfl
          exact List.disjoint_take_drop hnodup le_rfl hb hback
        rw [decide_eq_false hmem] at h
        intro w hw
        simpa using back_of_length_filter_le hlt.le hfront h w hw
      · rw [if_neg hvfs]
        intro hin
        exact front_of_placed_filter hnodup hplace (by simpa using fun heq => hvfs heq.symm) h vfs hin
          List.mem_cons_self
    | unmountByDisk d =>
      intro hgone
      have hd := hcall hgone
      rw [htoNat]
      refine ⟨fun w hw hwd => ?_, fun heq => absurd heq hd⟩
      obtain ⟨i, v, hv, hv_mem, hvd, hfirst⟩ := exists_first hw hwd
      obtain ⟨removed, hremoved, hv_removed, heq⟩ := changed_unmountByDisk_first hv hvd hfirst
      rw [heq] at h
      exact front_of_placed_filter hnodup hplace (fun hv₀ => hd (hremoved v₀ hv₀)) h v hv_mem hv_removed

end Changes

section Runs

variable {disk : F → D} {v₀ : F} {m m₁ : VFSManager F} {hasFile : F → List UInt8 → Bool}

omit [DecidableEq F] in
/-- The search stores a place of the list. -/
theorem searchLoop_eq_ok {filesystems : List F} {i : ℕ} {pathString : List UInt8}
    (hrun : (searchLoop hasFile filesystems i pathString).run m = .ok true m₁) :
    ∃ id : ℕ, m₁ = { m with bootPartitionID := id } := by
  induction filesystems generalizing i pathString with
  | nil => cases hrun
  | cons vfs rest ih =>
    rw [searchLoop] at hrun
    obtain ⟨-, hrest⟩ := bind_ensure_eq_ok.mp hrun
    simp only at hrest
    split at hrest
    · cases hrest
      exact ⟨i, rfl⟩
    · exact ih hrest

omit [DecidableEq F] in
/-- A search that succeeds stores a place. -/
theorem searchBootPartition_eq_ok (hrun : (searchBootPartition hasFile).run m = .ok true m₁) :
    ∃ id : ℕ, m₁.bootPartitionID = id := by
  rw [searchBootPartition, bind_look] at hrun
  obtain ⟨id, rfl⟩ := searchLoop_eq_ok hrun
  exact ⟨id, rfl⟩

/-- The letter is right after the search. Whatever is mounted and unmounted then, it stays right if
no call disturbs the place of the boot partition. In a run that mounts nothing twice and does not
unmount the disk of the boot partition as a whole, it stays right only then. -/
theorem bootLetter_stable (hsearch : (searchBootPartition hasFile).run m = .ok true m₁)
    (hboot : m₁.filesystems[m₁.bootPartitionID.toNat]? = some v₀) (calls : List (ManagerCall F D)) :
    FollowsBoot v₀ false m₁ ∧
      (EachCall (performCall disk v₀) noteUnmounted (Undisturbed disk v₀) calls false m₁ →
        EachCall (performCall disk v₀) noteUnmounted (KeepsLetter disk v₀) calls false m₁) ∧
      (m₁.filesystems.Nodup →
        EachCall (performCall disk v₀) noteUnmounted (Singly disk v₀) calls false m₁ →
        (EachCall (performCall disk v₀) noteUnmounted (KeepsLetter disk v₀) calls false m₁ ↔
          EachCall (performCall disk v₀) noteUnmounted (Undisturbed disk v₀) calls false m₁)) := by
  obtain ⟨id, hid⟩ := searchBootPartition_eq_ok hsearch
  rw [hid] at hboot
  have hfollows : FollowsBoot v₀ false m₁ := (followsBoot_iff hid).mpr hboot
  have hkeeps (gone : Bool) (m : VFSManager F) (call : ManagerCall F D) (mounted : Bool)
      (m' : VFSManager F) (h : m.bootPartitionID = id ∧ FollowsBoot v₀ gone m)
      (hcall : Undisturbed disk v₀ gone m call)
      (hrun : (performCall disk v₀ call).run m = .ok mounted m') :
      m'.bootPartitionID = id ∧ FollowsBoot v₀ (noteUnmounted gone call mounted) m' := by
    have hletter := keepsLetter_of_undisturbed h.1 ((followsBoot_iff h.1).mp h.2) hcall
    refine ⟨?_, hletter _ _ hrun⟩
    rw [performCall_run] at hrun
    cases hrun
    exact h.1
  refine ⟨hfollows, fun hcalls => ?_, fun hnodup hcalls => ?_⟩
  · refine EachCall.of_admissible (I := fun gone m => m.bootPartitionID = (id : ℤ) ∧ FollowsBoot v₀ gone m)
      ?_ ?_ ⟨hid, hfollows⟩ hcalls
    · rintro gone m call ⟨hid, h⟩ hcall
      exact keepsLetter_of_undisturbed hid ((followsBoot_iff hid).mp h) hcall
    · exact hkeeps
  · refine EachCall.congr_of_admissible (I := fun gone m =>
      (m.bootPartitionID = (id : ℤ) ∧ FollowsBoot v₀ gone m) ∧ m.filesystems.Nodup) ?_ ?_
      ⟨⟨hid, hfollows⟩, hnodup⟩ hcalls
    · rintro gone m call ⟨⟨hid, h⟩, hnodup⟩ hcall
      exact ⟨undisturbed_of_keepsLetter hid ((followsBoot_iff hid).mp h) hnodup hcall,
        keepsLetter_of_undisturbed hid ((followsBoot_iff hid).mp h)⟩
    · rintro gone m call mounted m' ⟨h, hnodup⟩ hcall hundisturbed hrun
      refine ⟨hkeeps gone m call mounted m' h hundisturbed hrun, ?_⟩
      rw [performCall_run] at hrun
      cases hrun
      exact nodup_changed hnodup hcall

/-- A file system that is mounted behind the boot partition and unmounted again does no harm. -/
theorem bootLetter_stable_unmount :
    EachCall (performCall (fun v : ℕ => v / 10) 17) noteUnmounted
      (KeepsLetter (fun v : ℕ => v / 10) 17) [.mount 18, .unmount 18] false ⟨[17], 0⟩ := by
  have hsearch : (searchBootPartition fun _ _ => true).run (⟨[17], -1⟩ : VFSManager ℕ) =
      .ok true ⟨[17], 0⟩ := rfl
  refine (bootLetter_stable hsearch rfl [.mount 18, .unmount 18]).2.1 ⟨?_, ?_, ?_⟩
  · intro hgone
    cases hgone
  · intro _
    decide
  · trivial

/-- A file system in front of the boot partition is unmounted. The letter has no file system then,
while the boot partition is still mounted. -/
theorem not_bootLetter_stable :
    ¬ ∀ (F D : Type) [DecidableEq F] [DecidableEq D] (disk : F → D) (hasFile : F → List UInt8 → Bool)
      (m m₁ : VFSManager F) (v₀ : F), (searchBootPartition hasFile).run m = .ok true m₁ →
      m₁.filesystems[m₁.bootPartitionID.toNat]? = some v₀ →
      ∀ calls : List (ManagerCall F D),
        EachCall (performCall disk v₀) noteUnmounted (KeepsLetter disk v₀) calls false m₁ := by
  intro hclaim
  have hsearch : (searchBootPartition fun v _ => v == 27).run (⟨[17, 27], -1⟩ : VFSManager ℕ) =
      .ok true ⟨[17, 27], 1⟩ := rfl
  have hcalls := hclaim ℕ ℕ (fun v => v / 10) _ _ _ 27 hsearch rfl [.unmount 17]
  have hplaced := (keepsLetter_iff rfl).mp hcalls.1
  rw [Placed] at hplaced
  revert hplaced
  decide

end Runs

end Vsos.Vfs
