import Vsos.Lib.Memory

/-!
# Paths, short names and long names

Strings are lists of bytes without their terminator. A directory slot is its 32 bytes, in
the packed layout of `DirectoryEntry`, or of `LFNEntry` when it holds part of a long name;
the accessors below name the fields by their offsets.

`KHeap` fills a block with 0xCC when it hands it out, and the least block has 32 bytes. The
twelve bytes of `ParseShortFilename` have no room for a NUL behind eight and three characters, so
such a name goes on with the fill. What follows the block is not modelled: the name ends there.

`ParseLFNEntries` stores thirteen characters at a position that the slot itself chooses, also in
front of its block or behind it. In the kernel such a store hits the headers of the heap, and
`CheckHeap` stops at them sooner or later. The scans here go on: a store in front of the block
is dropped, and the bytes behind it count as zero until they are stored to. So what is said
about a directory is said about the code as long as the stores of its long names stay inside
their blocks (`lfnStores` lists them).
-/

namespace Vsos.Fat

open Vsos.Lib

/-- `PATH_SEPERATOR_C`, a backslash. -/
def pathSeperator : UInt8 := 0x5C

/-- `IndexOf`, from index `i` on with `hits` matches seen. The index is an `int`. Behind `2 ^ 31`
characters it would wrap around and the loop would read in front of the string; here it ends. -/
def indexOfLoop (c : UInt8) (skip : ℕ) : List UInt8 → ℕ → ℕ → ℤ
  | [], _, _ => -1
  | x :: rest, hits, i =>
    if 2 ^ 31 ≤ i then -1
    else if x = c then
      if hits = skip then i else indexOfLoop c skip rest (wrap32 (hits + 1)) (i + 1)
    else indexOfLoop c skip rest hits (i + 1)

/-- `IndexOf`: the index of the match number `skip`, or -1. -/
def indexOf (str : List UInt8) (c : UInt8) (skip : ℕ) : ℤ := indexOfLoop c skip str 0 0

/-- `Uppercase` of one character. -/
def uppercase (c : UInt8) : UInt8 := if 97 ≤ c ∧ c ≤ 122 then c - 32 else c

/-- The loop of `StrSplit`: `part` is what was read since the last delimiter, and `found`
says whether a delimiter was met. -/
def splitLoop (d : UInt8) : List UInt8 → List UInt8 → Bool → List (List UInt8)
  | [], part, found => if found ∧ part ≠ [] then [part] else []
  | c :: rest, part, found =>
    if c = d then
      if part ≠ [] then part :: splitLoop d rest [] true else splitLoop d rest [] true
    else splitLoop d rest (part ++ [c]) found

/-- How many characters a loop up to `(int)length` looks at. -/
def intLength (length : ℕ) : ℕ := if wrap32 length < 2 ^ 31 then wrap32 length else 0

/-- `StrSplit`: the non-empty fields, or nothing when there is no delimiter. The length is an `int`,
so that of `2 ^ 31` characters or more only some or none are looked at. -/
def strSplit (str : List UInt8) (d : UInt8) : List (List UInt8) :=
  splitLoop d (str.take (intLength str.length)) [] false

/-- The C string at the start of a block of `bound` bytes. -/
def cString (b : Bytes) (bound : ℕ) : List UInt8 := ((List.range bound).map b).takeWhile (· ≠ 0)

/-- `ENTRY_END`. -/
def entryEnd : UInt8 := 0x00

/-- `ENTRY_UNUSED`. -/
def entryUnused : UInt8 := 0xE5

/-- `ATTR_VOLUME_ID`. -/
def attrVolumeId : UInt8 := 0x08

/-- `ATTR_DIRECTORY`. -/
def attrDirectory : UInt8 := 0x10

/-- `ATTR_LONG_NAME`. -/
def attrLongName : UInt8 := 0x0F

/-- `Attributes` of a slot; both slot layouts keep it at the same place. -/
def attributes (slot : Bytes) : UInt8 := slot 11

/-- `entry.Attributes & ATTR_DIRECTORY`. -/
def isDirectory (slot : Bytes) : Bool := attributes slot &&& attrDirectory != 0

/-- `GET_CLUSTER`: `LowFirstCluster` and `HighFirstCluster` put together. -/
def getCluster (slot : Bytes) : ℕ := slot.u16 26 + 65536 * slot.u16 20

/-- `FileSize`. -/
def fileSize (slot : Bytes) : ℕ := slot.u32 28

/-- `FAT::Checksum` of the 11 name bytes. -/
def checksum (filename : Bytes) : UInt8 :=
  (List.range 11).foldl
    (fun sum i => (if sum &&& 1 ≠ 0 then (0x80 : UInt8) else 0) + (sum >>> 1) + filename i) 0

/-- The trimming loops of `ParseShortFilename`: drop spaces at the end of a field. -/
def trimmedLength (str : Bytes) : ℕ → ℕ
  | 0 => 0
  | n + 1 => if str n = 0x20 then trimmedLength str n else n + 1

/-- A new block of twelve bytes that were set to 0, in a block of the heap with 32 bytes. -/
def nameBuffer : Bytes := fun i => if i < 12 then 0 else 0xCC

/-- The block that `ParseShortFilename` returns. -/
def shortBlock (str : Bytes) : Bytes :=
  let mainEnd := trimmedLength str 8
  let extEnd := trimmedLength (str.shift 8) 3
  let main : Bytes := nameBuffer.blit 0 str mainEnd
  if extEnd = 0 then main
  else (main.setU8 mainEnd 0x2E).blit (mainEnd + 1) (str.shift 8) extEnd

/-- `FAT::ParseShortFilename`. -/
def parseShortFilename (str : Bytes) : List UInt8 := cString (shortBlock str) 32

/-- Where an `LFNEntry` keeps its character `k`: in `namePart1`, `namePart2` or `namePart3`. -/
def lfnCharOffset (k : ℕ) : ℕ :=
  if k < 5 then 1 + 2 * k else if k < 11 then 14 + 2 * (k - 5) else 28 + 2 * (k - 11)

/-- The thirteen characters of an `LFNEntry`; characters that are not valid become 0. -/
def lfnChars (item : Bytes) : Bytes := fun k =>
  let c := item (lfnCharOffset k)
  if 32 ≤ c ∧ c ≤ 127 then c else 0

/-- The loop of `ParseLFNEntries`, on a block that starts at index 13 of the store. It ends
at the first slot with a wrong checksum. -/
def parseLFNLoop (shortChecksum : UInt8) : List Bytes → Bytes → Bytes
  | [], longName => longName
  | item :: rest, longName =>
    if item 13 ≠ shortChecksum then longName
    else
      parseLFNLoop shortChecksum rest
        (longName.blit (13 * (item 0 &&& 0x0F).toNat) (lfnChars item) 13)

/-- `FAT::ParseLFNEntries`. The stores reach at most 195 bytes into the block. -/
def parseLFNEntries (entries : List Bytes) (sfnEntry : Bytes) : List UInt8 :=
  cString ((parseLFNLoop (checksum sfnEntry) entries fun _ => 0).shift 13) 195

/-- One slot made by `CreateLFNEntriesFromName`: the characters from `13 * n` on. -/
def lfnEntry (name : List UInt8) (num n : ℕ) (sum : UInt8) : Bytes := fun i =>
  if i = 0 then UInt8.ofNat (n + 1) ||| (if n + 1 = num then 0x40 else 0)
  else if i = 11 then attrLongName
  else if i = 13 then sum
  else
    match (List.range 13).find? fun k => lfnCharOffset k = i with
    | some k => name.getD (13 * n + k) 0
    | none => 0

/-- `FAT::CreateLFNEntriesFromName`: the last part of the name comes first. -/
def createLFNEntriesFromName (name : List UInt8) (num : ℕ) (sum : UInt8) : List Bytes :=
  ((List.range num).map fun n => lfnEntry name num n sum).reverse

/-- `FAT::CreateShortFilename`: 11 bytes, or a null pointer for a name without a dot. -/
def createShortFilename (name : List UInt8) : Option Bytes :=
  match name.findIdx? (· = 0x2E) with
  | none => none
  | some dotIndex => some fun i =>
    if i < 8 then
      if 8 < dotIndex then
        if i < 6 then uppercase (name.getD i 0) else if i = 6 then 0x7E else 0x31
      else if i < dotIndex then uppercase (name.getD i 0) else 0x20
    else if i < 11 then
      if name.length ≤ dotIndex + 1 + (i - 8) then 0x20
      else uppercase (name.getD (dotIndex + 1 + (i - 8)) 0)
    else 0

end Vsos.Fat
