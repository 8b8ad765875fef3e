import Vsos.Lib.Program
import Mathlib.Data.Nat.Bitwise

/-!
# Probing a base address register

The size of a range is found by writing ones to its register, and reading back which of them have
been kept. The driver takes the lowest four bits of every register for flags. The registers of
input and output ranges have two, so that ranges of 4 and 8 bytes are taken for 16.
-/

namespace Vsos.Pci

open Vsos.Lib

/-- The configuration space behind the two ports of the host bridge: the number that was written
to the command port, and for each number the value of a register and the bits of it that can be
written. -/
structure ConfigSpace where
  command : BitVec 32
  register : BitVec 32 → BitVec 32
  writable : BitVec 32 → BitVec 32

/-- Write to the command port. -/
def writeCommand (id : BitVec 32) : Prog ConfigSpace Unit :=
  change fun s => { s with command := id }

/-- Read the data port. -/
def readData : Prog ConfigSpace (BitVec 32) := look fun s => s.register s.command

/-- Write to the data port. A register keeps the bits that cannot be written. -/
def writeData (value : BitVec 32) : Prog ConfigSpace Unit :=
  change fun s => { s with
    register := Function.update s.register s.command
      (s.register s.command &&& ~~~ s.writable s.command ||| value &&& s.writable s.command) }

/-- The number of a register. -/
def configId (bus device function : BitVec 16) (registeroffset : BitVec 32) : BitVec 32 :=
  (1#32 <<< 31) ||| ((bus.setWidth 32 &&& 0xFF) <<< 16) ||| ((device.setWidth 32 &&& 0x1F) <<< 11) |||
    ((function.setWidth 32 &&& 0x07) <<< 8) ||| (registeroffset &&& 0xFC)

/-- `PCIBus::read`. -/
def read (bus device function : BitVec 16) (registeroffset : BitVec 32) :
    Prog ConfigSpace (BitVec 32) := do
  writeCommand (configId bus device function registeroffset)
  let result ← readData
  return result >>> (8 * (registeroffset % 4))

/-- `PCIBus::write`. -/
def write (bus device function : BitVec 16) (registeroffset value : BitVec 32) :
    Prog ConfigSpace Unit := do
  writeCommand (configId bus device function registeroffset)
  writeData value

/-- `BaseAddressRegisterType`. -/
inductive BaseAddressRegisterType where
  | memoryMapping
  | inputOutput
  deriving DecidableEq, Repr

/-- The bit of a type. -/
def BaseAddressRegisterType.bit : BaseAddressRegisterType → BitVec 32
  | .memoryMapping => 0
  | .inputOutput => 1

/-- `BaseAddressRegister`, the fields that are set. -/
structure BaseAddressRegister where
  type : BaseAddressRegisterType
  address : BitVec 64
  size : BitVec 32
  deriving DecidableEq, Repr

/-- The offset of the header type, `PCI_DESCR_OFFSET_HEAD_TYPE`. -/
def headerType : BitVec 32 := 0x0E

/-- The offset of a base address register. -/
def barOffset (bar : BitVec 16) : BitVec 32 := 0x10 + 4 * bar.setWidth 32

/-- `get_base_address_register`. A device with another header gives a result in which nothing is
set. -/
def getBaseAddressRegister (bus device function bar : BitVec 16) :
    Prog ConfigSpace (Option BaseAddressRegister) := do
  let header ← read bus device function headerType
  if header &&& 0x3F ≠ 0 then return none
  else do
    let barValue ← read bus device function (barOffset bar)
    let type := if barValue &&& 1 ≠ 0 then .inputOutput else .memoryMapping
    write bus device function (barOffset bar) (0xFFFFFFF0 ||| type.bit)
    let size ← read bus device function (barOffset bar)
    write bus device function (barOffset bar) barValue
    return some
      { type, address := (barValue &&& ~~~ 0xF).setWidth 64, size := (~~~ size ||| 0xF) + 1 }

/-- The kind of a range, with the flags of a memory range above the bit of the type. -/
inductive BarKind where
  | io
  | memory (flags : BitVec 3)
  deriving DecidableEq, Repr

/-- The type that should be found. -/
def BarKind.type : BarKind → BaseAddressRegisterType
  | .io => .inputOutput
  | .memory _ => .memoryMapping

/-- The bits of a register that say what it is. -/
def BarKind.flags : BarKind → BitVec 32
  | .io => 1
  | .memory flags => flags.setWidth 32 <<< 1

/-- The smallest range has this power of two for its size. -/
def BarKind.least : BarKind → ℕ
  | .io => 2
  | .memory _ => 4

/-- A range of `2 ^ log` bytes at a multiple of its size. -/
structure Bar where
  kind : BarKind
  log : ℕ
  base : BitVec 32
  least_le : kind.least ≤ log
  le_most : log ≤ 31
  aligned : 2 ^ log ∣ base.toNat

/-- The value of the register. -/
def Bar.value (b : Bar) : BitVec 32 := b.base ||| b.kind.flags

/-- The bits of the register that can be written. -/
def Bar.mask (b : Bar) : BitVec 32 := BitVec.allOnes 32 <<< b.log

/-- The register of the range stands at this number. -/
def ConfigSpace.Presents (s : ConfigSpace) (id : BitVec 32) (b : Bar) : Prop :=
  s.register id = b.value ∧ s.writable id = b.mask

/-- The type, the address and the size of the range are found, and the register is as before. -/
def Probes (s : ConfigSpace) (bus device function bar : BitVec 16) (b : Bar) : Prop :=
  ∃ t, (getBaseAddressRegister bus device function bar).run s =
      .ok (some ⟨b.kind.type, b.base.setWidth 64, BitVec.ofNat 32 (2 ^ b.log)⟩) t ∧
    t.register (configId bus device function (barOffset bar)) =
      s.register (configId bus device function (barOffset bar))

section Bits

variable (b : Bar)

/-- The low bits of a base are zero. -/
theorem Bar.getLsbD_base {i : ℕ} (h : i < b.log) : b.base.getLsbD i = false := by
  obtain ⟨m, hm⟩ := b.aligned
  rw [BitVec.getLsbD, hm, Nat.testBit_two_pow_mul, decide_eq_false (by omega), Bool.false_and]

/-- The bits of the mask. -/
theorem Bar.getLsbD_mask (i : ℕ) : b.mask.getLsbD i = (decide (i < 32) && decide (b.log ≤ i)) := by
  rw [Bar.mask, BitVec.getLsbD_shiftLeft]
  rcases Nat.lt_or_ge i 32 with h | h
  · simp only [BitVec.getLsbD_allOnes]
    rcases Nat.lt_or_ge i b.log with hlog | hlog
    · simp [h, hlog]
    · simp [h, hlog, show i - b.log < 32 by omega]
  · simp [Nat.not_lt.mpr h]

/-- The flags of an input or output range lie below its size, and those of a memory range below
four bits. -/
theorem Bar.getLsbD_flags {i : ℕ} (h : b.log ≤ i ∨ 4 ≤ i) : b.kind.flags.getLsbD i = false := by
  have hleast := b.least_le
  cases hkind : b.kind with
  | io =>
    rw [hkind] at hleast
    simp only [BarKind.least] at hleast
    have hi : i ≠ 0 := by omega
    simp [BarKind.flags, BitVec.getLsbD_one, hi]
  | memory flags =>
    rw [hkind] at hleast
    simp only [BarKind.least] at hleast
    simp only [BarKind.flags, BitVec.getLsbD_shiftLeft, BitVec.getLsbD_setWidth]
    rw [BitVec.getLsbD_of_ge flags (i - 1) (by omega)]
    simp

/-- The register holds the base and the flags. -/
theorem Bar.getLsbD_value (i : ℕ) :
    b.value.getLsbD i = (b.base.getLsbD i || b.kind.flags.getLsbD i) :=
  BitVec.getLsbD_or

/-- The lowest bit tells the type. -/
theorem Bar.type_value :
    (if b.value &&& 1 ≠ 0 then .inputOutput else .memoryMapping : BaseAddressRegisterType) =
      b.kind.type := by
  have hleast := b.least_le
  have hlog : 0 < b.log := by
    cases hkind : b.kind <;> rw [hkind] at hleast <;> simp only [BarKind.least] at hleast <;> omega
  have hbit : b.value.getLsbD 0 = b.kind.flags.getLsbD 0 := by
    rw [b.getLsbD_value, b.getLsbD_base hlog, Bool.false_or]
  have hone : (1 : BitVec 32) = 1#32 := rfl
  rw [hone, BitVec.and_one_eq_setWidth_ofBool_getLsbD, hbit]
  cases b.kind with
  | io => rfl
  | memory flags =>
    have hzero : (BarKind.memory flags).flags.getLsbD 0 = false := by
      simp [BarKind.flags]
    rw [hzero]
    rfl

/-- The bits of the flag mask. -/
theorem getLsbD_fifteen (i : ℕ) : (0xF : BitVec 32).getLsbD i = decide (i < 4) := by
  have hfifteen : (0xF : BitVec 32) = BitVec.ofNat 32 (2 ^ 4 - 1) := rfl
  rw [hfifteen, BitVec.getLsbD_ofNat, Nat.testBit_two_pow_sub_one]
  rcases Nat.lt_or_ge i 4 with h | h
  · simp [h, show i < 32 by omega]
  · simp [Nat.not_lt.mpr h]

/-- The address is right when the lowest four bits of it are 0. -/
theorem Bar.address_value (h : 4 ≤ b.log) : b.value &&& ~~~ 0xF = b.base := by
  refine BitVec.eq_of_getLsbD_eq fun i hi => ?_
  rw [BitVec.getLsbD_and, BitVec.getLsbD_not, getLsbD_fifteen, b.getLsbD_value]
  rcases Nat.lt_or_ge i 4 with hlow | hhigh
  · rw [b.getLsbD_base (hlow.trans_le h), decide_eq_true hlow, Bool.not_true, Bool.and_false,
      Bool.and_false]
  · rw [b.getLsbD_flags (Or.inr hhigh), decide_eq_false (Nat.not_lt.mpr hhigh), decide_eq_true hi,
      Bool.or_false, Bool.not_false, Bool.and_true, Bool.and_true]

/-- The register after the ones have been written. -/
def Bar.probed : BitVec 32 :=
  b.value &&& ~~~ b.mask ||| (0xFFFFFFF0 ||| b.kind.type.bit) &&& b.mask

/-- The size that is found has at least four bits below it. -/
theorem Bar.size_probed :
    (~~~ b.probed ||| 0xF) + 1 = BitVec.ofNat 32 (2 ^ max b.log 4) := by
  have hones : ~~~ b.probed ||| 0xF = BitVec.ofNat 32 (2 ^ max b.log 4 - 1) := by
    refine BitVec.eq_of_getLsbD_eq fun i hi => ?_
    have hprobe : (0xFFFFFFF0 : BitVec 32) = ~~~ 0xF := rfl
    rw [BitVec.getLsbD_or, BitVec.getLsbD_not, getLsbD_fifteen, Bar.probed, hprobe,
      BitVec.getLsbD_or, BitVec.getLsbD_and, BitVec.getLsbD_not, BitVec.getLsbD_and,
      BitVec.getLsbD_or, BitVec.getLsbD_not, getLsbD_fifteen, b.getLsbD_mask, b.getLsbD_value,
      BitVec.getLsbD_ofNat, Nat.testBit_two_pow_sub_one]
    rcases Nat.lt_or_ge i 4 with hlow | hhigh
    · simp [hi, hlow]
    · rcases Nat.lt_or_ge i b.log with hlog | hlog
      · rw [b.getLsbD_base hlog, b.getLsbD_flags (Or.inr hhigh)]
        simp [hi, hlog, Nat.not_le.mpr hlog]
      · simp [hi, hlog, Nat.not_lt.mpr hhigh, Nat.not_lt.mpr hlog]
  have hpos : 0 < 2 ^ max b.log 4 := Nat.two_pow_pos _
  rw [hones, ← Nat.sub_add_cancel hpos, BitVec.ofNat_add, Nat.add_sub_cancel]
  rfl

/-- Writing the old value back restores the register. -/
theorem restored (v x m : BitVec 32) :
    (v &&& ~~~ m ||| x &&& m) &&& ~~~ m ||| v &&& m = v := by
  refine BitVec.eq_of_getLsbD_eq fun i hi => ?_
  simp only [BitVec.getLsbD_or, BitVec.getLsbD_and, BitVec.getLsbD_not, hi, decide_true,
    Bool.true_and]
  cases v.getLsbD i <;> cases m.getLsbD i <;> cases x.getLsbD i <;> rfl

end Bits

section Probe

variable {s : ConfigSpace} {bus device function bar : BitVec 16} {b : Bar}

/-- A read of the configuration space. -/
theorem read_run (bus device function : BitVec 16) (offset : BitVec 32) (s : ConfigSpace) :
    (read bus device function offset).run s =
      .ok (s.register (configId bus device function offset) >>> (8 * (offset % 4)))
        { s with command := configId bus device function offset } := rfl

/-- A write stores to the writable bits. -/
theorem write_run (bus device function : BitVec 16) (offset value : BitVec 32) (s : ConfigSpace) :
    (write bus device function offset value).run s =
      .ok () ⟨configId bus device function offset,
        Function.update s.register (configId bus device function offset)
          (s.register (configId bus device function offset) &&&
            ~~~ s.writable (configId bus device function offset) |||
          value &&& s.writable (configId bus device function offset)), s.writable⟩ := rfl

/-- A base address register is read as a whole. -/
theorem shift_barOffset (bar : BitVec 16) (x : BitVec 32) : x >>> (8 * (barOffset bar % 4)) = x := by
  have hzero : barOffset bar % 4 = 0 := by
    apply BitVec.eq_of_toNat_eq
    simp only [barOffset, BitVec.toNat_umod, BitVec.toNat_add, BitVec.toNat_mul,
      BitVec.toNat_setWidth]
    show (16 + 4 * (bar.toNat % 2 ^ 32) % 2 ^ 32) % 2 ^ 32 % 4 = 0
    omega
  rw [hzero]
  exact BitVec.ushiftRight_zero x

/-- What is found of a range behind a header of the right type. -/
theorem getBaseAddressRegister_run
    (hheader : s.register (configId bus device function headerType) >>> (8 * (headerType % 4)) &&&
      0x3F = 0)
    (hbar : s.Presents (configId bus device function (barOffset bar)) b) :
    ∃ t, (getBaseAddressRegister bus device function bar).run s =
        .ok (some ⟨b.kind.type, (b.value &&& ~~~ 0xF).setWidth 64,
          BitVec.ofNat 32 (2 ^ max b.log 4)⟩) t ∧
      t.register (configId bus device function (barOffset bar)) =
        s.register (configId bus device function (barOffset bar)) := by
  obtain ⟨hvalue, hmask⟩ := hbar
  let id := configId bus device function (barOffset bar)
  refine ⟨⟨id, Function.update (Function.update s.register id b.probed) id
    (b.probed &&& ~~~ b.mask ||| b.value &&& b.mask), s.writable⟩, ?_, ?_⟩
  · rw [getBaseAddressRegister, bind_of_ok (read_run ..), if_neg (not_not.mpr hheader),
      bind_of_ok (read_run ..), shift_barOffset, bind_of_ok (write_run ..), bind_of_ok (read_run ..),
      shift_barOffset, bind_of_ok (write_run ..)]
    simp only [Function.update_self, hvalue, hmask, b.type_value]
    rw [← b.size_probed]
    rfl
  · rw [hvalue]
    exact (Function.update_self ..).trans (restored _ _ _)

/-- The size of a smaller range is not the one that is found. -/
theorem size_ne {log : ℕ} (h : log < 4) :
    BitVec.ofNat 32 (2 ^ max log 4) ≠ BitVec.ofNat 32 (2 ^ log) := by
  intro hsize
  have hlt : 2 ^ log < 2 ^ 4 := Nat.pow_lt_pow_right (by decide) h
  have hnat := congrArg BitVec.toNat hsize
  rw [Nat.max_eq_right h.le, BitVec.toNat_ofNat, BitVec.toNat_ofNat, Nat.mod_eq_of_lt (hlt.trans (by decide))] at hnat
  exact hlt.ne' hnat

/-- A range is probed well just when the header is of the right type and the range has at least
16 bytes. -/
theorem probes_iff (hbar : s.Presents (configId bus device function (barOffset bar)) b) :
    Probes s bus device function bar b ↔
      s.register (configId bus device function headerType) >>> (8 * (headerType % 4)) &&& 0x3F = 0 ∧
        4 ≤ b.log := by
  by_cases hheader : s.register (configId bus device function headerType) >>>
      (8 * (headerType % 4)) &&& 0x3F = 0
  · obtain ⟨t, hrun, hrestored⟩ := getBaseAddressRegister_run hheader hbar
    constructor
    · rintro ⟨u, hprobe, -⟩
      refine ⟨hheader, ?_⟩
      by_contra hsmall
      rw [hrun] at hprobe
      injection hprobe with hfound
      injection hfound with hfound
      have hsize : BitVec.ofNat 32 (2 ^ max b.log 4) = BitVec.ofNat 32 (2 ^ b.log) :=
        congrArg BaseAddressRegister.size hfound
      exact size_ne (by omega) hsize
    · rintro ⟨-, hlarge⟩
      refine ⟨t, ?_, hrestored⟩
      rw [hrun, b.address_value hlarge, Nat.max_eq_left hlarge]
  · constructor
    · rintro ⟨t, hprobe, -⟩
      rw [getBaseAddressRegister, bind_of_ok (read_run ..), if_pos hheader] at hprobe
      cases hprobe
    · rintro ⟨h, -⟩
      exact absurd h hheader

end Probe

/-- A function with one range, and zeros in its other registers. -/
def singleRange (b : Bar) : ConfigSpace where
  command := 0
  register := Function.update (fun _ => 0) (configId 0 0 0 (barOffset 0)) b.value
  writable := fun _ => b.mask

/-- A memory range of 16 bytes, the smallest one. -/
theorem probes_smallest_memory :
    Probes (singleRange ⟨.memory 4, 4, 0xFEB00010, by decide, by decide, by decide⟩) 0 0 0 0
      ⟨.memory 4, 4, 0xFEB00010, by decide, by decide, by decide⟩ :=
  (probes_iff ⟨rfl, rfl⟩).mpr ⟨by decide, by decide⟩

/-- The eight ports of a serial line are taken for sixteen. -/
theorem not_probes : ¬ ∀ (s : ConfigSpace) (bus device function bar : BitVec 16) (b : Bar),
    s.register (configId bus device function headerType) >>> (8 * (headerType % 4)) &&& 0x3F = 0 →
      s.Presents (configId bus device function (barOffset bar)) b →
        Probes s bus device function bar b := by
  intro h
  let serial : Bar := ⟨.io, 3, 0x3F8, by decide, by decide, by decide⟩
  obtain ⟨t, hrun, -⟩ := h (singleRange serial) 0 0 0 0 serial (by decide) ⟨rfl, rfl⟩
  have hserial : (singleRange serial).Presents (configId 0 0 0 (barOffset 0)) serial := ⟨rfl, rfl⟩
  obtain ⟨u, hfound, -⟩ := getBaseAddressRegister_run (by decide) hserial
  rw [hfound] at hrun
  injection hrun with hresult
  injection hresult with hresult
  exact size_ne (by decide) (congrArg BaseAddressRegister.size hresult)

end Vsos.Pci
