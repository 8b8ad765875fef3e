import Vsos.Fat.Layout

/-!
# The entries of the table

`WriteTable` and `ReadTable` go through one sector of the table, in 32-bit arithmetic. An entry
is placed when the driver looks for it where the disk holds it and when it lies in one sector as a
whole. Placed entries are the cells of a map: a store changes the value of its own cell and of no
other, although two FAT12 entries share a byte.
-/

namespace Vsos.Fat

open Vsos.Lib

variable {v : Volume} {s t : State} {cluster : ℕ}

/-- The size of a whole entry. -/
def entrySize (v : Volume) : ℕ := if v.fatType = .FAT32 then 4 else 2

/-- The sector of the disk in which an entry of the first table starts. -/
def entryAddress (v : Volume) (cluster : ℕ) : ℕ :=
  v.startLBA + (v.firstFatSector + entryOffset v cluster / v.bytesPerSector)

/-- The driver finds the entry of a cluster where the disk holds it, in one sector. -/
structure Placed (v : Volume) (cluster : ℕ) : Prop where
  offset_eq : fatOffset v cluster = entryOffset v cluster
  address_eq : lba v (fatSector v cluster) 0 = entryAddress v cluster
  in_sector : entryOffset v cluster % v.bytesPerSector + entrySize v ≤ v.bytesPerSector
  in_block : entryOffset v cluster % v.bytesPerSector + entrySize v ≤ v.blockSize

/-- What an entry keeps of a value. -/
def entryValue (v : Volume) (value : ℕ) : ℕ :=
  match v.fatType with
  | .FAT32 => value % 2 ^ 28
  | .FAT16 => value % 2 ^ 16
  | .FAT12 => value % 2 ^ 12

/-- An entry keeps cluster numbers and end marks as they are. -/
theorem entryValue_of_le {value : ℕ} (h : value ≤ v.clusterEnd) : entryValue v value = value := by
  unfold Geometry.clusterEnd at h
  unfold entryValue
  cases htype : v.fatType <;> simp only [htype] at h ⊢ <;> exact Nat.mod_eq_of_lt (by omega)

/-- The entry of a cluster, cut out of the bytes from `offset` on. -/
def decodeEntry (v : Volume) (cluster : ℕ) (b : Bytes) (offset : ℕ) : ℕ :=
  match v.fatType with
  | .FAT32 => b.u32 offset % 2 ^ 28
  | .FAT16 => b.u16 offset
  | .FAT12 => if cluster % 2 = 1 then b.u16 offset >>> 4 else b.u16 offset &&& 0x0FFF

/-- The word that `WriteTable` stores in place of the word `old`. -/
def entryWord (v : Volume) (cluster value old : ℕ) : ℕ :=
  match v.fatType with
  | .FAT32 => value
  | .FAT16 => value
  | .FAT12 =>
    if cluster % 2 = 1 then old &&& 0x000F ||| wrap32 (value <<< 4)
    else old &&& 0xF000 ||| value &&& 0x0FFF

section Decode

/-- The entry that is decoded from the buffer. -/
theorem tableValue_eq (v : Volume) (cluster : ℕ) (buffer : Bytes) :
    tableValue v cluster buffer = decodeEntry v cluster buffer (entOffset v cluster) := rfl

/-- The entry that is decoded from the disk. -/
theorem diskEntry_eq (v : Volume) (s : State) (cluster : ℕ) :
    diskEntry v s cluster = decodeEntry v cluster (tableBytes v s) (entryOffset v cluster) := rfl

/-- An entry only depends on its own bytes. -/
theorem decodeEntry_congr {b b' : Bytes} {o o' : ℕ}
    (h : ∀ k < entrySize v, b (o + k) = b' (o' + k)) :
    decodeEntry v cluster b o = decodeEntry v cluster b' o' := by
  rw [entrySize] at h
  rw [decodeEntry, decodeEntry]
  cases htype : v.fatType with
  | FAT32 =>
    rw [if_pos htype] at h
    rw [Bytes.u32_congr h]
  | FAT16 =>
    rw [if_neg (by simp [htype])] at h
    exact Bytes.u16_congr (h 0 (by decide)) (h 1 (by decide))
  | FAT12 =>
    rw [if_neg (by simp [htype])] at h
    have hword : b.u16 o = b'.u16 o' := Bytes.u16_congr (h 0 (by decide)) (h 1 (by decide))
    rw [hword]

/-- A store overwrites the bytes of the entry. -/
theorem storeTableValue_eq (v : Volume) (cluster value : ℕ) (buffer : Bytes) :
    storeTableValue v cluster value buffer = buffer.blit (entOffset v cluster)
      (Bytes.word (entryWord v cluster value (buffer.u16 (entOffset v cluster)))) (entrySize v) := by
  rw [storeTableValue, entrySize, entryWord]
  cases htype : v.fatType with
  | FAT32 => simpa using Bytes.setU32_eq_blit _ _ _
  | FAT16 => simpa using Bytes.setU16_eq_blit _ _ _
  | FAT12 =>
    simp only [reduceCtorEq, if_false]
    split
    · exact Bytes.setU16_eq_blit _ _ _
    · exact Bytes.setU16_eq_blit _ _ _

end Decode

section Nibbles

/-- The high digit of a word. -/
theorem and_highDigit (x : ℕ) : x &&& 0xF000 = 2 ^ 12 * (x / 2 ^ 12 % 2 ^ 4) := by
  have hmask : 0xF000 = 2 ^ 12 * (2 ^ 4 - 1) := by decide
  apply Nat.eq_of_testBit_eq
  intro i
  rw [hmask, Nat.testBit_and, Nat.testBit_two_pow_mul, Nat.testBit_two_pow_mul,
    Nat.testBit_two_pow_sub_one, Nat.testBit_mod_two_pow, Nat.testBit_div_two_pow]
  by_cases hi : 12 ≤ i
  · simp [hi, Bool.and_comm]
  · simp [hi]

/-- The word of an even FAT12 entry keeps the digit of its neighbour. -/
theorem evenWord_eq (value old : ℕ) :
    old &&& 0xF000 ||| value &&& 0x0FFF = 2 ^ 12 * (old / 2 ^ 12 % 2 ^ 4) + value % 2 ^ 12 := by
  have hlow : value &&& 0x0FFF = value % 2 ^ 12 := Nat.and_two_pow_sub_one_eq_mod value 12
  rw [and_highDigit, hlow, Nat.two_pow_add_eq_or_of_lt (Nat.mod_lt _ (by decide))]

/-- The word of an odd FAT12 entry keeps the digit of its neighbour. -/
theorem oddWord_eq (value old : ℕ) :
    old &&& 0x000F ||| wrap32 (value <<< 4) = 2 ^ 4 * (value % 2 ^ 28) + old % 2 ^ 4 := by
  have hlow : old &&& 0x000F = old % 2 ^ 4 := Nat.and_two_pow_sub_one_eq_mod old 4
  have hshift : wrap32 (value <<< 4) = 2 ^ 4 * (value % 2 ^ 28) := by
    rw [wrap32]
    omega
  rw [hlow, hshift, Nat.or_comm, Nat.two_pow_add_eq_or_of_lt (Nat.mod_lt _ (by decide))]

/-- The packed entries of a FAT12 table behave like the cells of a map. -/
theorem packed_store (b : Bytes) (c c' value : ℕ) :
    let word := if c % 2 = 1 then b.u16 (c + c / 2) &&& 0x000F ||| wrap32 (value <<< 4)
      else b.u16 (c + c / 2) &&& 0xF000 ||| value &&& 0x0FFF
    let after := b.setU16 (c + c / 2) word
    (if c' % 2 = 1 then after.u16 (c' + c' / 2) >>> 4 else after.u16 (c' + c' / 2) &&& 0x0FFF) =
      if c' = c then value % 2 ^ 12
      else if c' % 2 = 1 then b.u16 (c' + c' / 2) >>> 4 else b.u16 (c' + c' / 2) &&& 0x0FFF := by
  intro word after
  have hlow (x : ℕ) : x &&& 0x0FFF = x % 2 ^ 12 := Nat.and_two_pow_sub_one_eq_mod x 12
  have hhigh (x : ℕ) : x >>> 4 = x / 2 ^ 4 := Nat.shiftRight_eq_div_pow x 4
  rw [hlow, hlow, hhigh, hhigh]
  by_cases hodd : c % 2 = 1
  · have hword : word = 2 ^ 4 * (value % 2 ^ 28) + b.u16 (c + c / 2) % 2 ^ 4 := by
      rw [← oddWord_eq]
      exact if_pos hodd
    by_cases hself : c' = c
    · rw [if_pos hself, hself, if_pos hodd, Bytes.u16_setU16]
      omega
    · rw [if_neg hself]
      by_cases hshared : c' + 1 = c
      · -- the even entry in front shares the first byte of the stored word
        have heven : ¬ c' % 2 = 1 := by omega
        have hoffset : c' + c' / 2 + 1 = c + c / 2 := by omega
        have hbyte : (after (c + c / 2)).toNat % 2 ^ 4 = (b (c + c / 2)).toNat % 2 ^ 4 := by
          rw [Bytes.setU16_low, hword, Bytes.u16]
          omega
        have hfront : after (c' + c' / 2) = b (c' + c' / 2) :=
          Bytes.setU16_of_not_mem (by omega) (by omega)
        rw [if_neg heven, if_neg heven, Bytes.u16, Bytes.u16, hoffset, hfront]
        omega
      · rw [Bytes.u16_setU16_of_disjoint (by omega)]
  · have hword : word = 2 ^ 12 * (b.u16 (c + c / 2) / 2 ^ 12 % 2 ^ 4) + value % 2 ^ 12 := by
      rw [← evenWord_eq]
      exact if_neg hodd
    by_cases hself : c' = c
    · rw [if_pos hself, hself, if_neg hodd, Bytes.u16_setU16]
      omega
    · rw [if_neg hself]
      by_cases hshared : c' = c + 1
      · -- the odd entry behind shares the second byte of the stored word
        have hodd' : c' % 2 = 1 := by omega
        have hoffset : c' + c' / 2 = c + c / 2 + 1 := by omega
        have hbyte : (after (c + c / 2 + 1)).toNat / 2 ^ 4 = (b (c + c / 2 + 1)).toNat / 2 ^ 4 := by
          rw [Bytes.setU16_high, hword, Bytes.u16]
          have hfirst := (b (c + c / 2)).toNat_lt
          have hsecond := (b (c + c / 2 + 1)).toNat_lt
          omega
        have hbehind : after (c + c / 2 + 1 + 1) = b (c + c / 2 + 1 + 1) :=
          Bytes.setU16_of_not_mem (by omega) (by omega)
        rw [if_pos hodd', if_pos hodd', Bytes.u16, Bytes.u16, hoffset, hbehind]
        omega
      · rw [Bytes.u16_setU16_of_disjoint (by omega)]

end Nibbles

section Store

/-- A table whose sector `q` was replaced. -/
theorem tableBytes_update (v : Volume) (s : State) (q : ℕ) (block : Bytes) (b : ℕ) (t : State)
    (ht : t.data = Function.update s.data (v.startLBA + (v.firstFatSector + q)) block) :
    tableBytes v t b = if b / v.bytesPerSector = q then block (b % v.bytesPerSector)
      else tableBytes v s b := by
  rw [tableBytes, ht]
  split
  · next h => rw [h, Function.update_self]
  · next h =>
    rw [Function.update_of_ne (by omega)]
    rfl

/-- The table is a map under the store of an entry. -/
theorem decodeEntry_store (b : Bytes) (c c' value : ℕ) :
    decodeEntry v c' (b.blit (entryOffset v c)
        (Bytes.word (entryWord v c value (b.u16 (entryOffset v c)))) (entrySize v))
        (entryOffset v c') =
      if c' = c then entryValue v value else decodeEntry v c' b (entryOffset v c') := by
  rw [decodeEntry, decodeEntry, entrySize, entryWord, entryValue]
  cases htype : v.fatType with
  | FAT32 =>
    simp only [entryOffset, htype, if_true]
    rw [← Bytes.setU32_eq_blit]
    split
    · next hc =>
      rw [hc, Bytes.u32_setU32]
      omega
    · rw [Bytes.u32_setU32_of_disjoint (by omega)]
  | FAT16 =>
    simp only [entryOffset, htype, reduceCtorEq, if_false]
    rw [← Bytes.setU16_eq_blit]
    split
    · next hc => rw [hc, Bytes.u16_setU16]
    · rw [Bytes.u16_setU16_of_disjoint (by omega)]
  | FAT12 =>
    simp only [entryOffset, htype, reduceCtorEq, if_false]
    rw [← Bytes.setU16_eq_blit]
    exact packed_store b c c' value

/-- A placed entry is read as the disk holds it. -/
theorem Placed.blockAt_eq (h : Placed v cluster) (s : State) {k : ℕ} (hk : k < entrySize v) :
    blockAt v s (lba v (fatSector v cluster) 0) (entOffset v cluster + k) =
      tableBytes v s (entryOffset v cluster + k) := by
  have hsector := h.in_sector
  have hblock := h.in_block
  rw [h.address_eq, entOffset, h.offset_eq, tableBytes_add s (by omega), blockAt,
    Bytes.blit_of_mem (Nat.zero_le _) (by omega), Nat.sub_zero, entryAddress]

/-- A placed entry is read as it is on the disk. -/
theorem Placed.tableEntry_eq (h : Placed v cluster) (s : State) (hlow : 2 ≤ cluster)
    (hhigh : cluster ≤ v.totalClusters) : tableEntry v s cluster = diskEntry v s cluster := by
  rw [tableEntry, if_neg (by omega), tableValue_eq]
  exact decodeEntry_congr fun k hk => h.blockAt_eq s hk

section

variable (h : Placed v cluster) (value : ℕ)
  (ht : t.data = Function.update s.data (lba v (fatSector v cluster) 0) ((s.data (lba v (fatSector v cluster) 0)).blit 0 (storeTableValue v cluster value (blockAt v s (lba v (fatSector v cluster) 0))) v.blockSize))
include h value ht

/-- A store changes the bytes of a placed entry. -/
theorem Placed.tableBytes_store :
    tableBytes v t = (tableBytes v s).blit (entryOffset v cluster)
      (Bytes.word (entryWord v cluster value ((tableBytes v s).u16 (entryOffset v cluster))))
      (entrySize v) := by
  have hpos := v.bytesPerSector_pos
  have hsector := h.in_sector
  have hblock := h.in_block
  have hsplit := Nat.div_add_mod (entryOffset v cluster) v.bytesPerSector
  have hsize : 2 ≤ entrySize v := by
    rw [entrySize]
    split <;> omega
  have hold : (blockAt v s (lba v (fatSector v cluster) 0)).u16 (entOffset v cluster) =
      (tableBytes v s).u16 (entryOffset v cluster) :=
    Bytes.u16_congr (h.blockAt_eq s (k := 0) (by omega)) (h.blockAt_eq s (by omega))
  rw [storeTableValue_eq, hold, h.address_eq, entOffset, h.offset_eq] at ht
  funext b
  have hb := Nat.div_add_mod b v.bytesPerSector
  rw [tableBytes_update v s _ _ b t ht]
  split
  · next hq =>
    rw [hq] at hb
    by_cases hin : entryOffset v cluster ≤ b ∧ b < entryOffset v cluster + entrySize v
    · rw [Bytes.blit_of_mem (Nat.zero_le _) (by omega), Bytes.blit_of_mem (by omega) (by omega),
        Bytes.blit_of_mem hin.1 hin.2]
      congr 1
      omega
    · rw [Bytes.blit_of_not_mem (i := b) (by omega)]
      by_cases hsmall : b % v.bytesPerSector < v.blockSize
      · rw [Bytes.blit_of_mem (Nat.zero_le _) (by omega), Bytes.blit_of_not_mem (by omega), blockAt,
          Bytes.blit_of_mem (by omega) (by omega), tableBytes, hq]
        rfl
      · rw [Bytes.blit_of_not_mem (by omega), tableBytes, hq]
        rfl
  · next hq =>
    rw [Bytes.blit_of_not_mem]
    by_contra hin
    apply hq
    have hb' : b = entryOffset v cluster % v.bytesPerSector + (b - entryOffset v cluster) +
        v.bytesPerSector * (entryOffset v cluster / v.bytesPerSector) := by omega
    rw [hb', Nat.add_mul_div_left _ _ hpos, Nat.div_eq_of_lt (by omega), Nat.zero_add]

/-- A store changes the entry of its cluster only. -/
theorem Placed.diskEntry_store :
    diskEntry v t = Function.update (diskEntry v s) cluster (entryValue v value) := by
  funext c
  rw [diskEntry_eq, h.tableBytes_store value ht, decodeEntry_store, Function.update_apply, diskEntry_eq]

end

end Store

/-! ## Tables of whole entries -/

section Whole

/-- No entry that the accessors of the table accept spans two sectors. -/
def WholeEntries (v : Volume) : Prop := ∀ c ≤ v.totalClusters, ¬ Straddles v c

/-- Without FAT12 no entry straddles two sectors. -/
theorem wholeEntries_of_type (htype : v.fatType ≠ .FAT12) : WholeEntries v :=
  fun _ _ hs => htype hs.1

variable (hwf : v.WellFormed)
include hwf

/-- An entry that does not straddle lies inside one sector. -/
theorem Volume.WellFormed.entry_fits (hs : ¬ Straddles v cluster) :
    entryOffset v cluster % v.bytesPerSector + entrySize v ≤ v.bytesPerSector := by
  cases h : v.fatType with
  | FAT32 =>
    have hdvd : 4 ∣ entryOffset v cluster := ⟨cluster, by simp [entryOffset, h]⟩
    have := hwf.entry_inside (by decide) hdvd (show 3 < 4 by decide)
    simp only [entrySize, h, if_true]
    omega
  | FAT16 =>
    have hdvd : 2 ∣ entryOffset v cluster := ⟨cluster, by simp [entryOffset, h]⟩
    have := hwf.entry_inside (by decide) hdvd (show 1 < 2 by decide)
    simp only [entrySize, h, reduceCtorEq, if_false]
    omega
  | FAT12 =>
    have hlt := Nat.mod_lt (entryOffset v cluster) v.bytesPerSector_pos
    have hne : entryOffset v cluster % v.bytesPerSector + 1 ≠ v.bytesPerSector :=
      fun heq => hs ⟨h, heq⟩
    simp only [entrySize, h, reduceCtorEq, if_false]
    omega

/-- On a well-formed volume the entries that do not straddle are placed. -/
theorem Volume.WellFormed.placed (hwhole : WholeEntries v) (hle : cluster ≤ v.totalClusters) :
    Placed v cluster where
  offset_eq := hwf.fatOffset_eq (by omega)
  address_eq := hwf.lba_fatSector (by omega)
  in_sector := hwf.entry_fits (hwhole cluster hle)
  in_block := by
    rw [hwf.blockSize_eq]
    exact hwf.entry_fits (hwhole cluster hle)

end Whole

end Vsos.Fat
