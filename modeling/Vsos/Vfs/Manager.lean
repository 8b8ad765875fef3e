import Vsos.Crt.Strtol
import Vsos.Fat.Name
import Vsos.Lib.Program

/-!
# Paths with a drive

A path begins with the number of a file system or with the letter of the boot partition, then
come a colon and a backslash. The manager looks for the two anywhere in the path. It copies what
stands in front of the colon without a terminator, and hands it to `strtol`.
-/

namespace Vsos.Vfs

open Vsos.Lib Vsos.Crt
open Vsos.Fat (pathSeperator)

/-- The characters of a C string. -/
abbrev CString := { s : List UInt8 // 0 ∉ s }

/-- `VFSManager`. -/
structure VFSManager (F : Type) where
  filesystems : List F
  bootPartitionID : ℤ := -1
  deriving DecidableEq, Repr

def colon : UInt8 := 0x3A

/-- `strchr`, as an offset. -/
def strchr : List UInt8 → UInt8 → Option ℕ
  | [], _ => none
  | c :: s, ch => if c = ch then some 0 else (strchr s ch).map (· + 1)

variable {F : Type}

/-- The part of `ExtractDiskNumber` that reads the copy, in the memory that begins at `idStr`. -/
def readNumber (m : VFSManager F) (idLength : ℕ) (idStr : List UInt8) : Except Halt (ℤ × ℕ) :=
  match idStr.head? with
  | none => .error .fault
  | some c =>
    if isalpha c then
      if c = 0x62 ∨ c = 0x42 then .ok (m.bootPartitionID, idLength % 2 ^ 8) else .ok (-1, 0)
    else
      match strtol idStr 10 with
      | none => .error .fault
      | some (idValue, _) => .ok (idValue, idLength % 2 ^ 8)

/-- `ExtractDiskNumber`, with the length that it stores. `tail` is the memory behind the copy. The
length is an `int`, and there is no memory for a negative one. -/
def extractDiskNumber (m : VFSManager F) (path tail : List UInt8) : Except Halt (ℤ × ℕ) :=
  match strchr path colon, strchr path pathSeperator with
  | some idPos, some _ =>
    if wrap32 idPos < 2 ^ 31 then readNumber m (wrap32 idPos) (path.take (wrap32 idPos) ++ tail)
    else .error .fault
  | _, _ => .ok (-1, 0)

/-- What an operation does: a file system gets the call with this path, or the operation returns
at once. -/
inductive Outcome where
  | forwarded (disk : ℕ) (argument : List UInt8)
  | returned (value : ℤ)
  deriving DecidableEq, Repr

/-- The C string at an offset. -/
def stringAt (memory : List UInt8) (offset : ℕ) : List UInt8 := (memory.drop offset).takeWhile (· ≠ 0)

/-- The body of the operations: the value for a path that is rejected, and the one for a path that
is only a drive, where that is no path for the file system. `after` is the memory behind the
path. -/
def dispatchTo (rejection : ℤ) (bare : Option ℤ) (m : VFSManager F) (path tail after : List UInt8) :
    Except Halt Outcome := do
  let (disk, idSize) ← extractDiskNumber m path tail
  if disk ≠ -1 ∧ 0 ≤ disk ∧ disk < m.filesystems.length then
    match bare with
    | some value =>
      if path.length = idSize + 2 then return .returned value
      else return .forwarded disk.toNat (stringAt (path ++ 0 :: after) (idSize + 2))
    | none => return .forwarded disk.toNat (stringAt (path ++ 0 :: after) (idSize + 2))
  else return .returned rejection

/-- `ReadFile`. -/
def readFile : VFSManager F → List UInt8 → List UInt8 → List UInt8 → Except Halt Outcome :=
  dispatchTo (-1) none

/-- `WriteFile`. -/
def writeFile : VFSManager F → List UInt8 → List UInt8 → List UInt8 → Except Halt Outcome :=
  dispatchTo (-1) none

/-- `FileExists`. -/
def fileExists : VFSManager F → List UInt8 → List UInt8 → List UInt8 → Except Halt Outcome :=
  dispatchTo 0 none

/-- `DirectoryExists`. -/
def directoryExists : VFSManager F → List UInt8 → List UInt8 → List UInt8 → Except Halt Outcome :=
  dispatchTo 0 (some 1)

/-- `CreateFile`. -/
def createFile : VFSManager F → List UInt8 → List UInt8 → List UInt8 → Except Halt Outcome :=
  dispatchTo (-1) (some 1)

/-- `CreateDirectory`. -/
def createDirectory : VFSManager F → List UInt8 → List UInt8 → List UInt8 → Except Halt Outcome :=
  dispatchTo (-1) (some 1)

/-- `GetFileSize`, which returns an unsigned number. -/
def getFileSize : VFSManager F → List UInt8 → List UInt8 → List UInt8 → Except Halt Outcome :=
  dispatchTo (2 ^ 32 - 1) none

/-- `DirectoryList`. -/
def directoryList : VFSManager F → List UInt8 → List UInt8 → List UInt8 → Except Halt Outcome :=
  dispatchTo 0 none

inductive Operation where
  | readFile
  | writeFile
  | fileExists
  | directoryExists
  | createFile
  | createDirectory
  | getFileSize
  | directoryList
  deriving DecidableEq, Repr

/-- An operation on a path, with the memory behind the copy and behind the path. -/
def perform : Operation → VFSManager F → List UInt8 → List UInt8 → List UInt8 → Except Halt Outcome
  | .readFile => Vfs.readFile
  | .writeFile => Vfs.writeFile
  | .fileExists => Vfs.fileExists
  | .directoryExists => Vfs.directoryExists
  | .createFile => Vfs.createFile
  | .createDirectory => Vfs.createDirectory
  | .getFileSize => Vfs.getFileSize
  | .directoryList => Vfs.directoryList

/-- What an operation returns for a path that it rejects. -/
def Operation.rejection : Operation → ℤ
  | .readFile | .writeFile | .createFile | .createDirectory => -1
  | .getFileSize => 2 ^ 32 - 1
  | .fileExists | .directoryExists | .directoryList => 0

/-- What an operation returns for a drive without a path. -/
def Operation.bare : Operation → Option ℤ
  | .directoryExists | .createFile | .createDirectory => some 1
  | .readFile | .writeFile | .fileExists | .getFileSize | .directoryList => none

/-- All operations have one body. -/
theorem perform_eq (op : Operation) : (perform op : VFSManager F → _) = dispatchTo op.rejection op.bare := by
  cases op <;> rfl

/-! ## What a path means -/

/-- The text in front of the colon stands for the file system `k`. -/
def Writes (m : VFSManager F) (id : List UInt8) (k : ℕ) : Prop :=
  (id ≠ [] ∧ (∀ c ∈ id, IsDigit c) ∧ numeral 0 id = k) ∨
    ((id = [0x62] ∨ id = [0x42]) ∧ m.bootPartitionID = k)

/-- The path names the mounted file system `k` and the path `r` on it. -/
def Names (m : VFSManager F) (path : List UInt8) (k : ℕ) (r : List UInt8) : Prop :=
  k < m.filesystems.length ∧ ∃ id, path = id ++ colon :: pathSeperator :: r ∧ Writes m id k

/-- The operation forwards the paths that name something to what they name, and rejects all
others. -/
def Dispatches (op : Operation) (m : VFSManager F) (path tail after : List UInt8) : Prop :=
  (∀ k r, perform op m path tail after = .ok (.forwarded k r) ↔ Names m path k r) ∧
    ((∀ k r, ¬ Names m path k r) → perform op m path tail after = .ok (.returned op.rejection))

/-- The copy of the text in front of the colon, and the memory behind it. -/
def idStr (id tail : List UInt8) : List UInt8 := id.take (wrap32 id.length) ++ tail

/-- The characters begin with the letter of the boot partition or with a number that is `k` as an
`int`. -/
def Gives (m : VFSManager F) (chars : List UInt8) (k : ℕ) : Prop :=
  ∃ c ∈ chars.head?, if isalpha c then (c = 0x62 ∨ c = 0x42) ∧ m.bootPartitionID = k
    else ∃ v, Denotes chars v ∧ v.bmod (2 ^ 32) = k

/-- The characters begin with a letter, or with a number that ends. -/
def Readable (chars : List UInt8) : Prop :=
  ∃ c ∈ chars.head?, isalpha c = false → ∃ v, Denotes chars v

/-- What stands in front of the colon and behind it is read as it is written: where the copy gives
a mounted file system, the text stands for it, is short, and a backslash and maybe a path follow;
and where it stands for one, the copy gives it. -/
structure ReadAsWritten (op : Operation) (m : VFSManager F) (id q tail : List UInt8) : Prop where
  short : wrap32 id.length < 2 ^ 31
  readable : Readable (idStr id tail)
  written : ∀ k < m.filesystems.length, Gives m (idStr id tail) k →
    Writes m id k ∧ id.length < 2 ^ 8 ∧ q.head? = some pathSeperator ∧
      (op.bare.isSome → q ≠ [pathSeperator])
  read : ∀ k < m.filesystems.length, Writes m id k → q.head? = some pathSeperator →
    Gives m (idStr id tail) k

/-- The number is that of a mounted file system. -/
def VFSManager.Mounted (m : VFSManager F) (disk : ℤ) : Prop := 0 ≤ disk ∧ disk < m.filesystems.length

/-- A backslash follows, and a path for those operations that answer for a drive alone. -/
def Operation.Follows (op : Operation) (q : List UInt8) : Prop :=
  q.head? = some pathSeperator ∧ (op.bare.isSome → q ≠ [pathSeperator])

/-- The grammar of what may stand in front of the colon and behind it. A text with the letter of a
mounted boot partition in front is that letter. A text with the number of a mounted file system in
front, as an `int`, is a numeral of less than 256 digits below the number of file systems. In both
cases the rest follows. -/
structure WellWritten (op : Operation) (m : VFSManager F) (id q : List UInt8) : Prop where
  letter : ∀ c rest, id = c :: rest → c = 0x62 ∨ c = 0x42 → m.Mounted m.bootPartitionID →
    rest = [] ∧ op.Follows q
  number : ∀ blanks sign digits rest, NumberAhead id blanks sign digits rest →
    (∀ c ∈ id.head?, ¬ isalpha c) → m.Mounted ((signedValue sign digits).bmod (2 ^ 32)) →
    id ≠ [] ∧ (∀ c ∈ id, IsDigit c) ∧ numeral 0 id < m.filesystems.length ∧ id.length < 2 ^ 8 ∧
      op.Follows q

section Reading

variable {m : VFSManager F} {path id q r tail after chars : List UInt8} {ch : UInt8} {k len e : ℕ}

/-- The first place of a character. -/
theorem strchr_append (h : ch ∉ id) (q : List UInt8) :
    strchr (id ++ ch :: q) ch = some id.length := by
  induction id with
  | nil => rw [List.nil_append, strchr, if_pos rfl, List.length_nil]
  | cons c id ih =>
    rw [List.mem_cons, not_or] at h
    rw [List.cons_append, strchr, if_neg fun heq => h.1 heq.symm, ih h.2, Option.map_some,
      List.length_cons]

/-- A character that does not occur. -/
theorem strchr_eq_none (h : ch ∉ path) : strchr path ch = none := by
  induction path with
  | nil => rfl
  | cons c s ih =>
    rw [List.mem_cons, not_or] at h
    rw [strchr, if_neg fun heq => h.1 heq.symm, ih h.2, Option.map_none]

/-- A character that occurs is found. -/
theorem exists_strchr (h : ch ∈ path) : ∃ i, strchr path ch = some i := by
  obtain ⟨id, q, rfl, hid⟩ := List.eq_append_cons_of_mem h
  exact ⟨_, strchr_append hid q⟩

/-- A path without a colon or a backslash has no number. -/
theorem extractDiskNumber_of_not_mem (m : VFSManager F) (tail : List UInt8)
    (h : colon ∉ path ∨ pathSeperator ∉ path) : extractDiskNumber m path tail = .ok (-1, 0) := by
  rw [extractDiskNumber]
  rcases h with h | h
  · rw [strchr_eq_none h]
  · rw [strchr_eq_none h]
    cases strchr path colon <;> rfl

/-- The text in front of the first colon is copied and read. -/
theorem extractDiskNumber_append (m : VFSManager F) (tail : List UInt8) (hid : colon ∉ id)
    (hsep : pathSeperator ∈ id ++ colon :: q) :
    extractDiskNumber m (id ++ colon :: q) tail =
      if wrap32 id.length < 2 ^ 31 then readNumber m (wrap32 id.length) (idStr id tail)
      else .error .fault := by
  obtain ⟨i, hi⟩ := exists_strchr hsep
  have hle : wrap32 id.length ≤ id.length := Nat.mod_le _ _
  rw [extractDiskNumber, strchr_append hid q, hi]
  simp only [List.take_append_of_le_length hle, idStr]

/-- The number that is read. -/
theorem readNumber_eq_ok_iff :
    readNumber m len chars = .ok ((k : ℤ), e) ↔ Gives m chars k ∧ e = len % 2 ^ 8 := by
  rw [readNumber, Gives]
  cases chars.head? with
  | none => simp
  | some c =>
    simp only [Option.mem_def, Option.some.injEq, exists_eq_left']
    by_cases hc : isalpha c
    · simp only [hc, if_true]
      by_cases hboot : c = 0x62 ∨ c = 0x42
      · simp only [hboot, if_true, Except.ok.injEq, Prod.mk.injEq, true_and]
        exact and_congr_right fun _ => eq_comm
      · simp only [hboot, if_false, Except.ok.injEq, Prod.mk.injEq, false_and, iff_false]
        omega
    · have hvalue : (∃ v, Denotes chars v ∧ v.bmod (2 ^ 32) = k) ↔
          ∃ rest, strtol chars 10 = some ((k : ℤ), rest) := by
        rw [exists_strtol_iff]
        exact exists_congr fun v => and_congr_right fun _ => eq_comm
      simp only [hc, Bool.false_eq_true, if_false, hvalue]
      cases strtol chars 10 with
      | none => simp
      | some x =>
        obtain ⟨w, rest⟩ := x
        simp only [Except.ok.injEq, Prod.mk.injEq, Option.some.injEq, exists_and_left, exists_eq',
          and_true]
        exact and_congr_right fun _ => eq_comm

/-- The number that the copy gives is the one that is read. -/
theorem Gives.readNumber (h : Gives m chars k) (len : ℕ) :
    readNumber m len chars = .ok ((k : ℤ), len % 2 ^ 8) :=
  readNumber_eq_ok_iff.mpr ⟨h, rfl⟩

/-- The copy gives one number at most. -/
theorem Gives.unique {k' : ℕ} (h : Gives m chars k) (h' : Gives m chars k') : k = k' := by
  have hread := h.readNumber 0
  rw [h'.readNumber 0] at hread
  simp only [Except.ok.injEq, Prod.mk.injEq, and_true] at hread
  omega

/-- Nothing is read behind the end of memory. -/
theorem exists_readNumber_iff : (∃ x, readNumber m len chars = .ok x) ↔ Readable chars := by
  have hvalue : (∃ v, Denotes chars v) ↔ ∃ x, strtol chars 10 = some x := by
    constructor
    · rintro ⟨v, hv⟩
      obtain ⟨rest, h⟩ := exists_strtol_iff.mpr ⟨v, hv, rfl⟩
      exact ⟨_, h⟩
    · rintro ⟨⟨w, rest⟩, h⟩
      obtain ⟨v, hv, -⟩ := exists_strtol_iff.mp ⟨rest, h⟩
      exact ⟨v, hv⟩
  rw [readNumber, Readable, hvalue]
  cases chars.head? with
  | none => simp
  | some c =>
    simp only [Option.mem_def, Option.some.injEq, exists_eq_left']
    by_cases hc : isalpha c
    · simp only [hc, if_true, Bool.true_eq_false, false_implies, iff_true]
      split
      · exact ⟨_, rfl⟩
      · exact ⟨_, rfl⟩
    · simp only [hc, Bool.false_eq_true, if_false]
      cases strtol chars 10 with
      | none => simp
      | some x => simp

end Reading

section Dispatching

variable {op : Operation} {m : VFSManager F} {path id q r tail after : List UInt8} {k e : ℕ}
  {disk : ℤ}

/-- A rejection is not taken for the answer to a drive alone. -/
theorem Operation.rejection_ne_one (op : Operation) : op.rejection ≠ 1 := by
  cases op <;> decide

/-- An operation rejects a number that no mounted file system has. -/
theorem perform_of_out_of_range (h : extractDiskNumber m path tail = .ok (disk, e))
    (hdisk : ∀ k < m.filesystems.length, disk ≠ (k : ℤ)) :
    perform op m path tail after = .ok (.returned op.rejection) := by
  have hrange : ¬ (disk ≠ -1 ∧ 0 ≤ disk ∧ disk < m.filesystems.length) := by
    rintro ⟨-, hlow, hhigh⟩
    exact hdisk disk.toNat (by omega) (by omega)
  rw [perform_eq, dispatchTo, h]
  exact if_neg hrange

/-- An operation forwards to a mounted file system, unless it answers for a drive alone. -/
theorem perform_of_in_range (h : extractDiskNumber m path tail = .ok ((k : ℤ), e))
    (hk : k < m.filesystems.length) :
    perform op m path tail after =
      .ok (if op.bare.isSome ∧ path.length = e + 2 then .returned 1
        else .forwarded k (stringAt (path ++ 0 :: after) (e + 2))) := by
  have hrange : (k : ℤ) ≠ -1 ∧ 0 ≤ (k : ℤ) ∧ (k : ℤ) < m.filesystems.length := by omega
  rw [perform_eq, dispatchTo, h]
  refine (if_pos hrange).trans ?_
  have hbare : op.bare = none ∨ op.bare = some 1 := by cases op <;> decide
  rcases hbare with hbare | hbare
  · rw [hbare]
    rfl
  · rw [hbare]
    simp only [Option.isSome_some, true_and]
    split <;> rfl

/-- An operation faults where the prefix cannot be read. -/
theorem perform_of_error {halt : Halt} (h : extractDiskNumber m path tail = .error halt) :
    perform op m path tail after = .error halt := by
  rw [perform_eq, dispatchTo, h]
  rfl

/-- A text that stands for a file system holds no colon. -/
theorem Writes.colon_not_mem (h : Writes m id k) : colon ∉ id := by
  rcases h with ⟨-, hdigits, -⟩ | ⟨rfl | rfl, -⟩
  · intro hcolon
    exact absurd (hdigits colon hcolon) (by decide)
  · decide
  · decide

/-- The text in front of the first colon of a path is one text. -/
theorem first_colon_unique {id' q' : List UInt8} (hid : colon ∉ id) (hid' : colon ∉ id')
    (heq : id ++ colon :: q = id' ++ colon :: q') : id = id' ∧ q = q' := by
  have hlength := congrArg (strchr · colon) heq
  simp only [strchr_append hid, strchr_append hid', Option.some.injEq] at hlength
  obtain ⟨rfl, hq⟩ := List.append_inj heq hlength
  exact ⟨rfl, (List.cons.inj hq).2⟩

/-- What a path names is decided at its first colon. -/
theorem names_append_iff (hid : colon ∉ id) :
    Names m (id ++ colon :: q) k r ↔
      k < m.filesystems.length ∧ q = pathSeperator :: r ∧ Writes m id k := by
  refine and_congr_right fun _ => ?_
  constructor
  · rintro ⟨id', heq, hwrites⟩
    obtain ⟨rfl, hq⟩ := first_colon_unique hid hwrites.colon_not_mem heq
    exact ⟨hq, hwrites⟩
  · rintro ⟨rfl, hwrites⟩
    exact ⟨id, rfl, hwrites⟩

/-- The string at an offset of the path is the rest of the path. -/
theorem stringAt_append (hpath : 0 ∉ path) (he : e ≤ path.length) :
    stringAt (path ++ 0 :: after) e = path.drop e := by
  have hdrop : ∀ c ∈ path.drop e, decide (c ≠ 0) = true := by
    intro c hc
    have hmem := List.mem_of_mem_drop hc
    exact decide_eq_true fun h => hpath (h ▸ hmem)
  rw [stringAt, List.drop_append_of_le_length he, List.takeWhile_append_of_pos hdrop,
    List.takeWhile_cons_of_neg (by simp), List.append_nil]

/-- The argument that is passed on is what the path names just when the length of the text fits
into a byte. -/
theorem names_argument_iff (hpath : 0 ∉ id ++ colon :: q) (hid : colon ∉ id)
    (hk : k < m.filesystems.length) :
    Names m (id ++ colon :: q) k
        (stringAt ((id ++ colon :: q) ++ 0 :: after) (id.length % 2 ^ 8 + 2)) ↔
      Writes m id k ∧ id.length < 2 ^ 8 ∧ q.head? = some pathSeperator := by
  rw [names_append_iff hid]
  cases q with
  | nil => simp
  | cons c r =>
    have hargument : stringAt ((id ++ colon :: c :: r) ++ 0 :: after) (id.length % 2 ^ 8 + 2) =
        (id ++ colon :: c :: r).drop (id.length % 2 ^ 8 + 2) :=
      stringAt_append hpath (by simp only [List.length_append, List.length_cons]; omega)
    have hrest : r = (id ++ colon :: c :: r).drop (id.length % 2 ^ 8 + 2) ↔ id.length < 2 ^ 8 := by
      constructor
      · intro heq
        have hlength := congrArg List.length heq
        simp only [List.length_drop, List.length_append, List.length_cons] at hlength
        omega
      · intro hlt
        rw [Nat.mod_eq_of_lt hlt, List.append_cons]
        simp
    rw [hargument, List.cons.injEq, List.head?_cons, Option.some.injEq]
    tauto

/-- A text stands for one file system at most. -/
theorem Writes.unique {k' : ℕ} (h : Writes m id k) (h' : Writes m id k') : k = k' := by
  rcases h with ⟨hne, hdigits, rfl⟩ | ⟨hid, hk⟩
  · rcases h' with ⟨-, -, rfl⟩ | ⟨rfl | rfl, -⟩
    · rfl
    · exact absurd (hdigits _ List.mem_cons_self) (by decide)
    · exact absurd (hdigits _ List.mem_cons_self) (by decide)
  · rcases h' with ⟨-, hdigits, -⟩ | ⟨-, hk'⟩
    · rcases hid with rfl | rfl
      · exact absurd (hdigits _ List.mem_cons_self) (by decide)
      · exact absurd (hdigits _ List.mem_cons_self) (by decide)
    · omega

/-- A path names one thing at most. -/
theorem Names.unique {k' : ℕ} {r' : List UInt8} (h : Names m path k r) (h' : Names m path k' r') :
    k = k' ∧ r = r' := by
  obtain ⟨hk, id, rfl, hwrites⟩ := h
  obtain ⟨-, hq, hwrites'⟩ := (names_append_iff hwrites.colon_not_mem).mp h'
  exact ⟨hwrites.unique hwrites', (List.cons.inj hq).2⟩

/-- An operation that dispatches a path as it should returns. -/
theorem Dispatches.exists_ok (h : Dispatches op m path tail after) :
    ∃ outcome, perform op m path tail after = .ok outcome := by
  by_cases hnames : ∃ k r, Names m path k r
  · obtain ⟨k, r, hnames⟩ := hnames
    exact ⟨_, (h.1 k r).mpr hnames⟩
  · exact ⟨_, h.2 fun k r hkr => hnames ⟨k, r, hkr⟩⟩

/-- A number that no file system has is right for a path that names nothing. -/
theorem dispatches_of_out_of_range_iff (h : extractDiskNumber m path tail = .ok (disk, e))
    (hdisk : ∀ k < m.filesystems.length, disk ≠ (k : ℤ)) :
    Dispatches op m path tail after ↔ ∀ k r, ¬ Names m path k r := by
  rw [Dispatches, perform_of_out_of_range h hdisk]
  constructor
  · rintro ⟨hforward, -⟩ k r hnames
    cases (hforward k r).mpr hnames
  · intro hnone
    exact ⟨fun k r => iff_of_false (by simp) (hnone k r), fun _ => rfl⟩

/-- The number of a file system is right for a path that names it with the argument. -/
theorem dispatches_of_in_range_iff (h : extractDiskNumber m path tail = .ok ((k : ℤ), e))
    (hk : k < m.filesystems.length) :
    Dispatches op m path tail after ↔
      Names m path k (stringAt (path ++ 0 :: after) (e + 2)) ∧
        ¬ (op.bare.isSome ∧ path.length = e + 2) := by
  rw [Dispatches, perform_of_in_range h hk]
  by_cases hbare : op.bare.isSome ∧ path.length = e + 2
  · rw [if_pos hbare]
    refine ⟨fun ⟨hforward, hreject⟩ => ?_, fun hnames => absurd hbare hnames.2⟩
    have hnone : ∀ k r, ¬ Names m path k r := by
      intro k r hnames
      cases (hforward k r).mpr hnames
    have hvalue := hreject hnone
    simp only [Except.ok.injEq, Outcome.returned.injEq] at hvalue
    exact absurd hvalue.symm op.rejection_ne_one
  · rw [if_neg hbare]
    refine ⟨fun hforward => ⟨(hforward.1 k _).mp rfl, hbare⟩, fun ⟨hnames, _⟩ => ⟨?_, ?_⟩⟩
    · intro k' r'
      simp only [Except.ok.injEq, Outcome.forwarded.injEq]
      constructor
      · rintro ⟨rfl, rfl⟩
        exact hnames
      · exact hnames.unique
    · intro hnone
      exact absurd hnames (hnone _ _)

end Dispatching

section Condition

variable {op : Operation} {m : VFSManager F} {id q tail after : List UInt8} {k e : ℕ} {disk : ℤ}

/-- A path whose prefix cannot be read is not dispatched. -/
theorem not_dispatches_of_error {path : List UInt8} {halt : Halt}
    (h : extractDiskNumber m path tail = .error halt) : ¬ Dispatches op m path tail after := by
  intro hdispatches
  obtain ⟨outcome, hok⟩ := hdispatches.exists_ok
  rw [perform_of_error h] at hok
  cases hok

section

variable (hshort : wrap32 id.length < 2 ^ 31) (hreadable : Readable (idStr id tail))
include hshort hreadable

/-- Where the copy gives a mounted file system, the text has to stand for it. -/
theorem readAsWritten_of_gives_iff (hk : k < m.filesystems.length)
    (hgives : Gives m (idStr id tail) k) :
    ReadAsWritten op m id q tail ↔
      (Writes m id k ∧ id.length < 2 ^ 8 ∧ q.head? = some pathSeperator) ∧
        ¬ (op.bare.isSome ∧ (id ++ colon :: q).length = id.length % 2 ^ 8 + 2) := by
  constructor
  · intro h
    obtain ⟨hwrites, hlt, hhead, hbare⟩ := h.written k hk hgives
    refine ⟨⟨hwrites, hlt, hhead⟩, fun ⟨hsome, hlength⟩ => hbare hsome ?_⟩
    obtain ⟨r, rfl⟩ := List.head?_eq_some_iff.mp hhead
    simp only [List.length_append, List.length_cons] at hlength
    rw [List.length_eq_zero_iff.mp (show r.length = 0 by omega)]
  · rintro ⟨⟨hwrites, hlt, hhead⟩, hbare⟩
    refine ⟨hshort, hreadable, fun k' _ hgives' => ?_, fun k' _ hwrites' _ => ?_⟩
    · rw [← hgives.unique hgives']
      refine ⟨hwrites, hlt, hhead, fun hsome hq => hbare ⟨hsome, ?_⟩⟩
      rw [hq, Nat.mod_eq_of_lt hlt]
      simp
    · rwa [← hwrites.unique hwrites']

/-- Where it gives none, the text must not stand for one. -/
theorem readAsWritten_of_not_gives_iff (hid : colon ∉ id)
    (hgives : ∀ k < m.filesystems.length, ¬ Gives m (idStr id tail) k) :
    ReadAsWritten op m id q tail ↔ ∀ k r, ¬ Names m (id ++ colon :: q) k r := by
  constructor
  · intro h k r hnames
    obtain ⟨hk, rfl, hwrites⟩ := (names_append_iff hid).mp hnames
    exact hgives k hk (h.read k hk hwrites rfl)
  · intro hnone
    refine ⟨hshort, hreadable, fun k hk hk' => absurd hk' (hgives k hk), fun k hk hwrites hhead => ?_⟩
    obtain ⟨r, rfl⟩ := List.head?_eq_some_iff.mp hhead
    exact absurd ((names_append_iff hid).mpr ⟨hk, rfl, hwrites⟩) (hnone k r)

end

/-- A path with a colon and a backslash is dispatched as it should be just when it is read as it
is written. -/
theorem dispatches_append_iff (hpath : 0 ∉ id ++ colon :: q) (hid : colon ∉ id)
    (hsep : pathSeperator ∈ id ++ colon :: q) :
    Dispatches op m (id ++ colon :: q) tail after ↔ ReadAsWritten op m id q tail := by
  have hextract := extractDiskNumber_append m tail hid hsep
  have hbyte : wrap32 id.length % 2 ^ 8 = id.length % 2 ^ 8 := by
    rw [wrap32]
    omega
  by_cases hshort : wrap32 id.length < 2 ^ 31
  · rw [if_pos hshort] at hextract
    cases hread : readNumber m (wrap32 id.length) (idStr id tail) with
    | error halt =>
      rw [hread] at hextract
      refine iff_of_false (not_dispatches_of_error hextract) fun h => ?_
      have hok : ∃ x, readNumber m (wrap32 id.length) (idStr id tail) = .ok x :=
        exists_readNumber_iff.mpr h.readable
      obtain ⟨x, hx⟩ := hok
      rw [hread] at hx
      cases hx
    | ok x =>
      obtain ⟨disk, e⟩ := x
      have hreadable := exists_readNumber_iff.mp ⟨_, hread⟩
      rw [hread] at hextract
      by_cases hrange : ∃ k < m.filesystems.length, disk = (k : ℤ)
      · obtain ⟨k, hk, rfl⟩ := hrange
        obtain ⟨hgives, rfl⟩ := readNumber_eq_ok_iff.mp hread
        rw [hbyte] at hextract
        rw [dispatches_of_in_range_iff hextract hk, names_argument_iff hpath hid hk,
          readAsWritten_of_gives_iff hshort hreadable hk hgives]
      · have hdisk : ∀ k < m.filesystems.length, disk ≠ (k : ℤ) := by
          intro k hk heq
          exact hrange ⟨k, hk, heq⟩
        rw [dispatches_of_out_of_range_iff hextract hdisk,
          readAsWritten_of_not_gives_iff hshort hreadable hid]
        intro k hk hgives
        rw [hgives.readNumber] at hread
        cases hread
        exact hdisk k hk rfl
  · rw [if_neg hshort] at hextract
    exact iff_of_false (not_dispatches_of_error hextract) fun h => hshort h.short

section Grammar

variable {c : UInt8} (hm : m.filesystems.length ≤ 2 ^ 31) (hc : EndsNumber c)

/-- A number below `2 ^ 31` is itself as an `int`. -/
theorem bmod_numeral {n : ℕ} (hn : n < 2 ^ 31) : (n : ℤ).bmod (2 ^ 32) = n :=
  Int.bmod_eq_of_le (by omega) (by omega)

/-- A mounted file system has its place in the list. -/
theorem VFSManager.Mounted.exists_lt (h : m.Mounted disk) : ∃ k < m.filesystems.length, disk = (k : ℤ) := by
  obtain ⟨k, rfl⟩ := Int.eq_ofNat_of_zero_le h.1
  exact ⟨k, Int.ofNat_lt.mp h.2, rfl⟩

/-- The copy of a short text is the text with what lies behind. -/
theorem idStr_of_lt (tail : List UInt8) (hshort : id.length < 2 ^ 31) : idStr id tail = id ++ tail := by
  rw [idStr, wrap32_of_lt (hshort.trans (by decide)), List.take_length]

/-- A numeral is the number in front of itself. -/
theorem numberAhead_self (h : ∀ c ∈ id, IsDigit c) : NumberAhead id [] [] id [] :=
  ⟨by simp, by simp, Or.inl rfl, h, by simp⟩

/-- No digit is a letter. -/
theorem not_isalpha_of_isDigit (h : IsDigit c) : ¬ isalpha c := by
  have hlow : 48 ≤ c.toNat := UInt8.le_iff_toNat_le.mp h.1
  have hhigh : c.toNat ≤ 57 := UInt8.le_iff_toNat_le.mp h.2
  simp only [isalpha, gt_iff_lt, Bool.or_eq_true, Bool.and_eq_true, decide_eq_true_eq,
    UInt8.lt_iff_toNat_lt, not_or, not_and]
  change (64 < c.toNat → ¬ c.toNat < 91) ∧ (96 < c.toNat → ¬ c.toNat < 123)
  omega

/-- A copy with a letter in front gives the boot partition, if anything. -/
theorem gives_cons_iff {d : UInt8} (hd : isalpha d) :
    Gives m (d :: id ++ c :: tail) k ↔ (d = 0x62 ∨ d = 0x42) ∧ m.bootPartitionID = k := by
  simp only [Gives, List.cons_append, List.head?_cons, Option.mem_def, Option.some.injEq,
    exists_eq_left', hd, if_true]

include hc

/-- The first character of a copy that a character ends. -/
theorem head_ended (tail : List UInt8) (hid : ∀ c ∈ id.head?, ¬ isalpha c) :
    ∃ d ∈ (id ++ c :: tail).head?, ¬ isalpha d := by
  cases id with
  | nil => exact ⟨c, rfl, hc.2.2.2.2⟩
  | cons d id => exact ⟨d, rfl, hid d rfl⟩

/-- The copy of a text without a letter in front gives the number in front of the text. -/
theorem gives_iff_of_numberAhead (hid : ∀ c ∈ id.head?, ¬ isalpha c) {blanks sign digits rest : List UInt8}
    (hahead : NumberAhead id blanks sign digits rest) :
    Gives m (id ++ c :: tail) k ↔ (signedValue sign digits).bmod (2 ^ 32) = k := by
  obtain ⟨d, hd, hletter⟩ := head_ended hc tail hid
  have hdenotes : Denotes (id ++ c :: tail) (signedValue sign digits) := hahead.denotes hc
  rw [Gives]
  constructor
  · rintro ⟨d', hd', hgives⟩
    rw [hd] at hd'
    cases hd'
    rw [if_neg hletter] at hgives
    obtain ⟨v, hv, hk⟩ := hgives
    exact (hdenotes.bmod_eq hv).trans hk
  · intro hvalue
    exact ⟨d, hd, by rw [if_neg hletter]; exact ⟨_, hdenotes, hvalue⟩⟩

include hm in
/-- The copy of a numeral gives its value, if that is the number of a file system. -/
theorem gives_numeral_iff (hid : ∀ c ∈ id.head?, ¬ isalpha c) (hdigits : ∀ c ∈ id, IsDigit c)
    (hvalue : numeral 0 id < m.filesystems.length) :
    Gives m (id ++ c :: tail) k ↔ numeral 0 id = k := by
  rw [gives_iff_of_numberAhead hc hid (numberAhead_self hdigits), signedValue, if_neg (by simp),
    bmod_numeral (hvalue.trans_le hm), Nat.cast_inj]

omit hc in
/-- A text with a letter in front is read as it is written just when it keeps to the grammar. -/
theorem readAsWritten_iff_of_isalpha {d : UInt8} (hshort : (d :: id).length < 2 ^ 31) (hd : isalpha d) :
    ReadAsWritten op m (d :: id) q (c :: tail) ↔ WellWritten op m (d :: id) q := by
  have hcopy := idStr_of_lt (c :: tail) hshort
  have hwrites (k : ℕ) : Writes m (d :: id) k ↔
      ((d = 0x62 ∨ d = 0x42) ∧ id = []) ∧ m.bootPartitionID = k := by
    rw [Writes, or_iff_right]
    · simp only [List.cons.injEq, or_and_right]
    · exact fun h => not_isalpha_of_isDigit (h.2.1 d List.mem_cons_self) hd
  constructor
  · intro h
    refine ⟨fun d' rest heq hboot hmounted => ?_, fun _ _ _ _ _ hno => absurd hd (hno d rfl)⟩
    cases heq
    obtain ⟨k, hlt, hk⟩ := hmounted.exists_lt
    have hgives : Gives m (idStr (d :: id) (c :: tail)) k := by
      rw [hcopy, gives_cons_iff hd]
      exact ⟨hboot, hk⟩
    obtain ⟨hwritten, -, hfollows⟩ := h.written k hlt hgives
    exact ⟨((hwrites k).mp hwritten).1.2, hfollows⟩
  · intro h
    refine ⟨(Nat.mod_le ..).trans_lt hshort, ⟨d, by rw [hcopy]; rfl, fun hno => absurd hd (by simp [hno])⟩,
      fun k hk hgives => ?_, fun k _ hwritten _ => ?_⟩
    · rw [hcopy, gives_cons_iff hd] at hgives
      obtain ⟨hboot, hpartition⟩ := hgives
      obtain ⟨rfl, hfollows⟩ := h.letter d id rfl hboot ⟨by omega, by omega⟩
      exact ⟨(hwrites k).mpr ⟨⟨hboot, rfl⟩, hpartition⟩, by simp, hfollows⟩
    · rw [hcopy, gives_cons_iff hd]
      obtain ⟨⟨hboot, -⟩, hpartition⟩ := (hwrites k).mp hwritten
      exact ⟨hboot, hpartition⟩

include hm

/-- A text without a letter in front is read as it is written just when it keeps to the grammar. -/
theorem readAsWritten_iff_of_not_isalpha (hshort : id.length < 2 ^ 31)
    (hno : ∀ d ∈ id.head?, ¬ isalpha d) :
    ReadAsWritten op m id q (c :: tail) ↔ WellWritten op m id q := by
  have hcopy := idStr_of_lt (c :: tail) hshort
  have hwrites (k : ℕ) : Writes m id k ↔ id ≠ [] ∧ (∀ c ∈ id, IsDigit c) ∧ numeral 0 id = k := by
    rw [Writes, or_iff_left]
    rintro ⟨rfl | rfl, -⟩
    · exact hno 0x62 rfl (by decide)
    · exact hno 0x42 rfl (by decide)
  constructor
  · intro h
    refine ⟨fun d rest heq hboot _ => ?_, fun blanks sign digits rest hahead _ hmounted => ?_⟩
    · subst heq
      rcases hboot with rfl | rfl
      · exact absurd (by decide) (hno 0x62 rfl)
      · exact absurd (by decide) (hno 0x42 rfl)
    · obtain ⟨k, hlt, hk⟩ := hmounted.exists_lt
      have hgives : Gives m (idStr id (c :: tail)) k := by
        rw [hcopy, gives_iff_of_numberAhead hc hno hahead]
        exact hk
      obtain ⟨hwritten, hlength, hfollows⟩ := h.written k hlt hgives
      obtain ⟨hne, hdigits, hvalue⟩ := (hwrites k).mp hwritten
      exact ⟨hne, hdigits, hvalue ▸ hlt, hlength, hfollows⟩
  · intro h
    obtain ⟨blanks, sign, digits, rest, hahead⟩ := exists_numberAhead id
    refine ⟨(Nat.mod_le ..).trans_lt hshort, ?_, fun k hk hgives => ?_, fun k hk hwritten _ => ?_⟩
    · obtain ⟨d, hd, -⟩ := head_ended hc tail hno
      rw [hcopy]
      exact ⟨d, hd, fun _ => ⟨_, hahead.denotes hc⟩⟩
    · rw [hcopy] at hgives
      have hk' := (gives_iff_of_numberAhead hc hno hahead).mp hgives
      obtain ⟨hne, hdigits, hvalue, hlength, hfollows⟩ :=
        h.number blanks sign digits rest hahead hno ⟨by omega, by omega⟩
      have hnumeral := (gives_numeral_iff hm hc hno hdigits hvalue).mp hgives
      exact ⟨(hwrites k).mpr ⟨hne, hdigits, hnumeral⟩, hlength, hfollows⟩
    · obtain ⟨-, hdigits, rfl⟩ := (hwrites k).mp hwritten
      rw [hcopy, gives_numeral_iff hm hc hno hdigits hk]

/-- Where a character ends the copy, the text is read as it is written just when it keeps to the
grammar. -/
theorem readAsWritten_iff_wellWritten (hshort : id.length < 2 ^ 31) :
    ReadAsWritten op m id q (c :: tail) ↔ WellWritten op m id q := by
  by_cases hletter : ∃ d rest, id = d :: rest ∧ isalpha d
  · obtain ⟨d, rest, rfl, hd⟩ := hletter
    exact readAsWritten_iff_of_isalpha hshort hd
  · refine readAsWritten_iff_of_not_isalpha hm hc hshort fun d hd halpha => ?_
    obtain ⟨rest, rfl⟩ := List.head?_eq_some_iff.mp hd
    exact hletter ⟨d, rest, rfl, halpha⟩

end Grammar

/-- Where the byte behind the copy ends a number, an operation forwards a path just as it should,
and rejects it just as it should, if and only if the path keeps to the grammar at its first colon,
where there is one in a path with a backslash. -/
theorem dispatches_iff (op : Operation) (m : VFSManager F) (hm : m.filesystems.length ≤ 2 ^ 31)
    (path : CString) (hshort : path.1.length < 2 ^ 31) (c : UInt8) (hc : EndsNumber c)
    (tail after : List UInt8) :
    Dispatches op m path (c :: tail) after ↔
      ∀ id q, path.1 = id ++ colon :: q → colon ∉ id → pathSeperator ∈ path.1 →
        WellWritten op m id q := by
  obtain ⟨path, hpath⟩ := path
  by_cases hmem : colon ∈ path ∧ pathSeperator ∈ path
  · obtain ⟨hcolon, hsep⟩ := hmem
    obtain ⟨id, q, rfl, hid⟩ := List.eq_append_cons_of_mem hcolon
    have hlength : id.length < 2 ^ 31 := by
      simp only [List.length_append] at hshort
      omega
    rw [dispatches_append_iff hpath hid hsep, readAsWritten_iff_wellWritten hm hc hlength]
    constructor
    · intro h id' q' heq hid' _
      obtain ⟨rfl, rfl⟩ := first_colon_unique hid hid' heq
      exact h
    · intro h
      exact h id q rfl hid hsep
  · have hextract : extractDiskNumber m path (c :: tail) = .ok (-1, 0) :=
      extractDiskNumber_of_not_mem m _ (by tauto)
    rw [dispatches_of_out_of_range_iff hextract (by omega)]
    constructor
    · rintro - id q rfl - hsep
      exact absurd ⟨by simp, hsep⟩ hmem
    · rintro - k r ⟨-, id, rfl, -⟩
      exact hmem ⟨by simp, by simp⟩

/-- The path `1:\f` is dispatched to the second of two file systems. -/
theorem dispatches_second : Dispatches .readFile (⟨[(), ()], 0⟩ : VFSManager Unit)
    [0x31, 0x3A, 0x5C, 0x66] [0] [] := by
  refine (dispatches_iff .readFile ⟨[(), ()], 0⟩ (by decide) ⟨[0x31, 0x3A, 0x5C, 0x66], by decide⟩
    (by decide) 0 (by decide) [] []).mpr fun id q heq hid _ => ?_
  obtain ⟨rfl, rfl⟩ := first_colon_unique (by decide : colon ∉ [0x31]) hid heq
  refine ⟨fun c rest hcons hboot => ?_, fun _ _ _ _ _ _ _ => ?_⟩
  · cases hcons
    exact absurd hboot (by decide)
  · have hdigit : ∀ c ∈ ([0x31] : List UInt8), IsDigit c :=
      List.forall_mem_singleton.mpr ⟨by decide, by decide⟩
    exact ⟨by decide, hdigit, by decide, by decide, rfl, by decide⟩

/-- The path `bx:\f` is forwarded to the boot partition. -/
theorem not_dispatches : ¬ ∀ (F : Type) (op : Operation) (m : VFSManager F) (path : CString)
    (tail after : List UInt8), Dispatches op m path tail after := by
  intro hclaim
  have hforward := (hclaim Unit .readFile ⟨[()], 0⟩ ⟨[0x62, 0x78, 0x3A, 0x5C, 0x66], by decide⟩
    [] []).1 0 [0x66]
  have hnames := hforward.mp (by decide)
  have hid : colon ∉ ([0x62, 0x78] : List UInt8) := by decide
  obtain ⟨-, -, hwrites⟩ := (names_append_iff hid).mp hnames
  rcases hwrites with ⟨-, hdigits, -⟩ | ⟨hletter | hletter, -⟩
  · exact absurd (hdigits 0x62 List.mem_cons_self) (by decide)
  · cases hletter
  · cases hletter

end Condition

end Vsos.Vfs
