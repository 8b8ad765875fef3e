import Vsos.Lib.Memory

/-!
# The streams of a program database

The blocks of a stream lie anywhere in the file. `Read<T>()` loads its value with one access into a
block, so a value that goes over the end of the block is continued with what lies behind that block in
the file. The other two readers go on with the next block of the stream.
-/

namespace Vsos.Pdb

open Vsos.Lib

/-- `PageSize`, the size of a block. -/
def blockSize : ℕ := 2 ^ 12

/-- The members `m_file` and `m_blockNumbers` of `MsfStream`. -/
structure MsfStream where
  file : Bytes
  blockNumbers : List ℕ

namespace MsfStream

variable (stream : MsfStream)

/-- `m_file.GetBlock(m_blockNumbers[number])`. `Read(char*, size_t)` may look at a number behind the last
one, but does not use the pointer that it makes of it. -/
def getBlock (number : ℕ) : Bytes := stream.file.shift (stream.blockNumbers.getD number 0 * blockSize)

/-- `GetPointer`. -/
def getPointer (position : ℕ) : Bytes :=
  (stream.getBlock (position / blockSize)).shift (position % blockSize)

/-- `Read<T>()` for a type of `n` bytes, with the new position. -/
def read (n position : ℕ) : ℕ × ℕ :=
  (littleEndian (stream.getPointer position) n, wrap32 (position + n))

/-- `Read(T*)` for a type of `n` bytes, with the new position. -/
def readInto (value : Bytes) (n position : ℕ) : Bytes × ℕ :=
  let blockNumber := position / blockSize
  let blockIndex := position % blockSize
  let bytes := min n (blockSize - blockIndex)
  let value := value.blit 0 ((stream.getBlock blockNumber).shift blockIndex) bytes
  let remaining := n - bytes
  let value := if remaining ≠ 0 then value.blit bytes (stream.getBlock (blockNumber + 1)) remaining
    else value
  (value, wrap32 (position + n))

/-- The loop of `Read(char*, size_t)` from byte `i` of the buffer on, with the new position. -/
def readLoop : ℕ → ℕ → Bytes → ℕ → Bytes × ℕ
  | 0, _, buffer, position => (buffer, position)
  | n + 1, i, buffer, position =>
    readLoop n (i + 1) (Function.update buffer i (stream.getPointer position 0)) (wrap32 (position + 1))

/-- The blocks of the stream one after the other. -/
def content : Bytes := fun i => stream.getBlock (i / blockSize) (i % blockSize)

/-- The three readers yield the next `n` bytes of the stream and move on by `n`. -/
def ReadsAgree (n position : ℕ) : Prop :=
  stream.read n position = (littleEndian (stream.content.shift position) n, position + n) ∧
    ∀ buffer,
      littleEndian (stream.readInto buffer n position).1 n =
        littleEndian (stream.content.shift position) n ∧
      (stream.readInto buffer n position).2 = position + n ∧
      littleEndian (stream.readLoop n 0 buffer position).1 n =
        littleEndian (stream.content.shift position) n ∧
      (stream.readLoop n 0 buffer position).2 = position + n

end MsfStream

namespace MsfStream

variable {stream : MsfStream} {n position : ℕ}

/-- Where a byte of a value lies: in the block of its first byte, or in the next block. -/
theorem content_add {k : ℕ} (hk : k < blockSize) : stream.content (position + k) =
    if position % blockSize + k < blockSize then stream.getPointer position k
    else stream.getBlock (position / blockSize + 1) (position % blockSize + k - blockSize) := by
  by_cases hfirst : position % blockSize + k < blockSize
  · have hplace : (position + k) / blockSize = position / blockSize ∧
        (position + k) % blockSize = position % blockSize + k := by
      simp only [blockSize] at hfirst hk ⊢
      omega
    rw [if_pos hfirst, content, hplace.1, hplace.2]
    rfl
  · have hplace : (position + k) / blockSize = position / blockSize + 1 ∧
        (position + k) % blockSize = position % blockSize + k - blockSize := by
      simp only [blockSize] at hfirst hk ⊢
      omega
    rw [if_neg hfirst, content, hplace.1, hplace.2]

/-- `Read(T*)` takes each byte from the block that it lies in. -/
theorem readInto_apply (value : Bytes) (hn : n ≤ blockSize) {k : ℕ} (hk : k < n) :
    (stream.readInto value n position).1 k = stream.content (position + k) := by
  have hindex := Nat.mod_lt position (show 0 < blockSize by decide)
  rw [content_add (by omega)]
  simp only [readInto]
  by_cases hfirst : position % blockSize + k < blockSize
  · split
    · rw [Bytes.blit_of_not_mem (by omega), Bytes.blit_of_mem (by omega) (by omega)]
      rfl
    · rw [Bytes.blit_of_mem (by omega) (by omega)]
      rfl
  · rw [if_neg hfirst, if_pos (by omega), Bytes.blit_of_mem (by omega) (by omega)]
    exact congrArg _ (by omega)

/-- The byte-wise reader puts the bytes of the stream into the buffer, one after the other. -/
theorem readLoop_spec (buffer : Bytes) (i : ℕ) (hend : position + n < 2 ^ 32) :
    (∀ k, (stream.readLoop n i buffer position).1 k =
        if i ≤ k ∧ k < i + n then stream.content (position + (k - i)) else buffer k) ∧
      (stream.readLoop n i buffer position).2 = position + n := by
  induction n generalizing i buffer position with
  | zero => exact ⟨fun k => (if_neg (by omega)).symm, rfl⟩
  | succ n ih =>
    obtain ⟨hbytes, hposition⟩ :=
      ih (Function.update buffer i (stream.getPointer position 0)) (i + 1)
        (show position + 1 + n < 2 ^ 32 by omega)
    rw [readLoop, wrap32_of_lt (by omega)]
    refine ⟨fun k => ?_, hposition.trans (by omega)⟩
    rw [hbytes]
    by_cases hk : k = i
    · rw [hk, if_neg (by omega), if_pos (by omega), Function.update_self, Nat.sub_self]
      rfl
    · rw [Function.update_of_ne hk]
      by_cases hin : i ≤ k ∧ k < i + (n + 1)
      · rw [if_pos (by omega), if_pos hin]
        congr 1
        omega
      · rw [if_neg (by omega), if_neg hin]

/-- The readers agree just when the single access of `Read<T>()` meets the bytes of the stream. -/
theorem readsAgree_iff_getPointer (hn : n ≤ blockSize) (hend : position + n < 2 ^ 32) :
    stream.ReadsAgree n position ↔
      ∀ k < n, stream.getPointer position k = stream.content (position + k) := by
  have hread : stream.read n position = (littleEndian (stream.content.shift position) n, position + n) ↔
      ∀ k < n, stream.getPointer position k = stream.content (position + k) := by
    rw [read, wrap32_of_lt hend, Prod.mk.injEq, littleEndian_inj, and_iff_left rfl]
    rfl
  rw [ReadsAgree, hread, and_iff_left]
  intro buffer
  obtain ⟨hloop, hposition⟩ := stream.readLoop_spec buffer 0 hend
  refine ⟨littleEndian_inj.mpr fun k hk => readInto_apply buffer hn hk, wrap32_of_lt hend,
    littleEndian_inj.mpr fun k hk => ?_, hposition⟩
  rw [hloop, if_pos (by omega)]
  rfl

/-- In all files the readers agree just when the value lies in one block, or the next block of the
stream is the next one of the file as well. -/
theorem readsAgree_iff {blockNumbers : List ℕ} (hn : n ∈ [1, 2, 4, 8]) (hend : position + n < 2 ^ 32) :
    (∀ file, ReadsAgree ⟨file, blockNumbers⟩ n position) ↔
      position % blockSize + n ≤ blockSize ∨
        blockNumbers.getD (position / blockSize + 1) 0 =
          blockNumbers.getD (position / blockSize) 0 + 1 := by
  have hle : n ≤ blockSize := by
    simp only [List.mem_cons, List.not_mem_nil, or_false] at hn
    simp only [blockSize]
    omega
  have hindex := Nat.mod_lt position (show 0 < blockSize by decide)
  simp only [readsAgree_iff_getPointer hle hend]
  constructor
  · intro hall
    rw [or_iff_not_imp_left]
    intro hover
    -- a file that is zero but for the byte behind the block
    have hbyte := hall (Function.update (fun _ => 0)
      ((blockNumbers.getD (position / blockSize) 0 + 1) * blockSize) 1)
      (blockSize - position % blockSize) (by omega)
    rw [content_add (by omega)] at hbyte
    simp only [getPointer, getBlock, Bytes.shift_apply, Nat.add_sub_cancel' hindex.le, Nat.sub_self,
      Nat.add_zero, ← Nat.succ_mul, Function.update_self] at hbyte
    by_contra hne
    rw [Function.update_of_ne fun heq => hne (Nat.eq_of_mul_eq_mul_right (by decide) heq)] at hbyte
    cases hbyte
  · rintro hcond file k hk
    rw [content_add (by omega)]
    split
    · rfl
    · next hlast =>
      have hnext := hcond.resolve_left (by omega)
      simp only [getPointer, getBlock, Bytes.shift_apply, hnext, Nat.succ_mul]
      exact congrArg file (by omega)

/-- A word over the end of a block, with the next block right behind it. -/
theorem readsAgree_adjacent :
    4 ∈ [1, 2, 4, 8] ∧ ∀ file, ReadsAgree ⟨file, [5, 6]⟩ 4 4094 :=
  ⟨by decide, (readsAgree_iff (by decide) (by decide)).mpr (Or.inr rfl)⟩

/-- A word over the end of a block, with the next block somewhere else. -/
theorem not_readsAgree :
    ¬ ∀ (file : Bytes) (blockNumbers : List ℕ) (size n position : ℕ), size < 2 ^ 32 →
      size ≤ blockNumbers.length * blockSize → n ∈ [1, 2, 4, 8] → position + n ≤ size →
      ReadsAgree ⟨file, blockNumbers⟩ n position := by
  intro hclaim
  have hagree := hclaim (Function.update (fun _ => 0) (6 * blockSize) 1) [5, 7] 8192 4 4094 (by decide)
    (by decide) (by decide) (by decide)
  have hbyte := (readsAgree_iff_getPointer (by decide) (by decide)).mp hagree 2 (by decide)
  exact absurd hbyte (by decide)

end MsfStream

end Vsos.Pdb
