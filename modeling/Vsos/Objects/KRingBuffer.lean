import Vsos.Lib.Circular
import Vsos.Lib.Refinement

/-!
# The ring buffer

The ring buffer keeps the position of the next item to read, the position of the last item
written and the number of stored items. It is a bounded queue: the stored items are the window
of the buffer that starts at the head, and the tail is the last position of the window. In an
empty buffer the tail stands right behind the head, which is why it starts at the last
position.
-/

namespace Vsos.Objects

open Vsos.Lib

variable {T : Type} {N : ℕ}

/-- The fields of `KRingBuffer`. Both positions lie inside of the array, so that no position
overflows when one is added to it. -/
structure KRingBuffer (T : Type) (N : ℕ) where
  head : ℕ
  tail : ℕ
  count : ℕ
  buffer : Vector T N
  head_lt : head < N
  tail_lt : tail < N

namespace KRingBuffer

/-- A new buffer: its array is value-initialised. -/
def construct (T : Type) (N : ℕ) [Inhabited T] [NeZero N] : KRingBuffer T N where
  head := 0
  tail := N - 1
  count := 0
  buffer := Vector.replicate N default
  head_lt := Nat.pos_of_neZero N
  tail_lt := Nat.sub_one_lt (NeZero.ne N)

def isFull (b : KRingBuffer T N) : Bool := N == b.count

def isEmpty (b : KRingBuffer T N) : Bool := b.count == 0

/-- Take the item at the head out, or refuse and leave everything as it is. -/
def read [NeZero N] (b : KRingBuffer T N) : Option (T × KRingBuffer T N) :=
  if b.count = 0 then none
  else
    some (b.buffer.get ⟨b.head, b.head_lt⟩,
      { b with
        count := b.count - 1
        head := (b.head + 1) % N
        head_lt := Nat.mod_lt _ (Nat.pos_of_neZero N) })

/-- Store an item behind the tail, or refuse and leave everything as it is. -/
def write [NeZero N] (b : KRingBuffer T N) (item : T) : Option (KRingBuffer T N) :=
  if b.count = N then none
  else
    have hlt : (b.tail + 1) % N < N := Nat.mod_lt _ (Nat.pos_of_neZero N)
    some
      { b with
        tail := (b.tail + 1) % N
        buffer := b.buffer.set ((b.tail + 1) % N) item hlt
        count := b.count + 1
        tail_lt := hlt }

end KRingBuffer

/-! ## Queues -/

/-- The bounded queue that a ring buffer stands for, with the oldest item in front. -/
abbrev Fifo (T : Type) := List T

namespace Fifo

/-- Append an item, unless `N` items are stored. -/
def write (N : ℕ) (queue : Fifo T) (item : T) : Option (Fifo T) :=
  if queue.length = N then none else some (queue ++ [item])

/-- Remove the oldest item, unless none is stored. -/
def read : Fifo T → Option (T × Fifo T)
  | [] => none
  | item :: rest => some (item, rest)

end Fifo

/-- A call of a buffer's user. -/
inductive Call (T : Type)
  | write (item : T)
  | read

/-- What `Count`, `IsFull` and `IsEmpty` say. -/
structure Fill where
  count : ℕ
  isFull : Bool
  isEmpty : Bool
  deriving DecidableEq

/-- What a call returns, the item it hands out, and what the buffer says of itself
afterwards. -/
structure Answer (T : Type) where
  success : Bool
  item : Option T
  fill : Fill
  deriving DecidableEq

def KRingBuffer.fill (b : KRingBuffer T N) : Fill := ⟨b.count, b.isFull, b.isEmpty⟩

def Fifo.fill (N : ℕ) (queue : Fifo T) : Fill :=
  ⟨queue.length, queue.length = N, queue = []⟩

/-- One call on a ring buffer. -/
def KRingBuffer.perform [NeZero N] : Call T → KRingBuffer T N → Answer T × KRingBuffer T N
  | .write item, b =>
    match b.write item with
    | some b' => (⟨true, none, b'.fill⟩, b')
    | none => (⟨false, none, b.fill⟩, b)
  | .read, b =>
    match b.read with
    | some (item, b') => (⟨true, some item, b'.fill⟩, b')
    | none => (⟨false, none, b.fill⟩, b)

/-- One call on a bounded queue. -/
def Fifo.perform (N : ℕ) : Call T → Fifo T → Answer T × Fifo T
  | .write item, queue =>
    match Fifo.write N queue item with
    | some queue' => (⟨true, none, Fifo.fill N queue'⟩, queue')
    | none => (⟨false, none, Fifo.fill N queue⟩, queue)
  | .read, queue =>
    match Fifo.read queue with
    | some (item, queue') => (⟨true, some item, Fifo.fill N queue'⟩, queue')
    | none => (⟨false, none, Fifo.fill N queue⟩, queue)

/-! ## The buffer is a queue -/

section

variable [NeZero N] {b : KRingBuffer T N} {queue : Fifo T}

/-- The buffer holds the items of a queue: they are the window that starts at the head, and the
position behind the tail is the one behind the window. -/
structure Holds (b : KRingBuffer T N) (queue : Fifo T) : Prop where
  count_le : b.count ≤ N
  items : window b.buffer b.head b.count = queue
  behind : (b.tail + 1) % N = (b.head + b.count) % N

/-- The count is the length of the queue. -/
theorem Holds.length (h : Holds b queue) : queue.length = b.count := by
  rw [← h.items, length_window]

/-- A new buffer holds the empty queue. -/
theorem holds_construct [Inhabited T] : Holds (KRingBuffer.construct T N) [] where
  count_le := Nat.zero_le N
  items := rfl
  behind := by
    change (N - 1 + 1) % N = 0 % N
    rw [Nat.sub_add_cancel (Nat.pos_of_neZero N), Nat.mod_self, Nat.zero_mod]

/-- The fill level of the buffer is that of the queue. -/
theorem Holds.fill_eq (h : Holds b queue) : b.fill = Fifo.fill N queue := by
  have hempty : queue = [] ↔ b.count = 0 := by rw [← List.length_eq_zero_iff, h.length]
  rw [KRingBuffer.fill, Fifo.fill, h.length, KRingBuffer.isFull, KRingBuffer.isEmpty]
  simp only [hempty, beq_eq_decide, eq_comm (a := N)]

/-- A stored item extends the window by the position behind the tail. -/
theorem Holds.write (h : Holds b queue) (item : T) :
    Option.Rel Holds (b.write item) (Fifo.write N queue item) := by
  rw [KRingBuffer.write, Fifo.write, h.length]
  by_cases hfull : b.count = N
  · rw [if_pos hfull, if_pos hfull]
    exact .none
  rw [if_neg hfull, if_neg hfull]
  have hlt : b.count < N := lt_of_le_of_ne h.count_le hfull
  have hplace : (b.tail + 1) % N = (Fin.ofNat N (b.head + b.count)).val := h.behind
  refine .some ⟨hlt, ?_, ?_⟩
  · rw [← h.items, ← window_set _ _ hlt item]
    simp only [hplace]
  · calc ((b.tail + 1) % N + 1) % N
        = ((b.head + b.count) % N + 1) % N := by rw [h.behind]
      _ = (b.head + (b.count + 1)) % N := by rw [Nat.mod_add_mod, add_assoc]

/-- A read item shortens the window at the head. -/
theorem Holds.read (h : Holds b queue) :
    Option.Rel (fun x y => x.1 = y.1 ∧ Holds x.2 y.2) b.read (Fifo.read queue) := by
  rw [KRingBuffer.read, ← h.items]
  cases hcount : b.count with
  | zero => exact .none
  | succ count =>
    rw [if_neg (Nat.succ_ne_zero count), window_succ]
    have hle : count + 1 ≤ N := hcount ▸ h.count_le
    have hhead : Fin.ofNat N b.head = ⟨b.head, b.head_lt⟩ := Fin.ext (Nat.mod_eq_of_lt b.head_lt)
    refine .some ⟨by rw [hhead], Nat.le_of_succ_le hle, window_mod _ _ _, ?_⟩
    have hbehind := h.behind
    rw [hcount, add_comm count 1, ← add_assoc] at hbehind
    rw [hbehind, Nat.add_sub_cancel, Nat.mod_add_mod]

/-- Every call on a ring buffer does what it does to the queue of its items. -/
theorem simulates_fifo :
    Simulates (KRingBuffer.perform (T := T) (N := N)) (Fifo.perform N) Holds := by
  intro call b queue h
  cases call with
  | write item =>
    rw [KRingBuffer.perform, Fifo.perform]
    have hwrite := h.write item
    generalize b.write item = stored, Fifo.write N queue item = stored' at hwrite ⊢
    cases hwrite with
    | none => exact ⟨congrArg _ h.fill_eq, h⟩
    | some hnext => exact ⟨congrArg _ hnext.fill_eq, hnext⟩
  | read =>
    rw [KRingBuffer.perform, Fifo.perform]
    have hread := h.read
    generalize b.read = taken, Fifo.read queue = taken' at hread ⊢
    cases hread with
    | none => exact ⟨congrArg _ h.fill_eq, h⟩
    | some hnext => exact ⟨congrArg₂ _ (congrArg _ hnext.1) hnext.2.fill_eq, hnext.2⟩

end

/-- A ring buffer cannot be told from a bounded queue: a new one is empty, and every sequence of
calls gives the same answers, with the same fill after each call. -/
theorem ringBuffer_refines_fifo (T : Type) (N : ℕ) [Inhabited T] [NeZero N] :
    (KRingBuffer.construct T N).fill = Fifo.fill N ([] : Fifo T) ∧
      ∀ calls, answers KRingBuffer.perform calls (KRingBuffer.construct T N) =
        answers (Fifo.perform N) calls [] :=
  ⟨holds_construct.fill_eq, fun calls => simulates_fifo.answers_eq calls holds_construct⟩

/-- Three writes and two reads on a buffer of two items: the third write is refused. -/
theorem ringBuffer_refines_fifo_two :
    answers KRingBuffer.perform [.write 7, .write 8, .write 9, .read, .read]
        (KRingBuffer.construct ℕ 2) =
      [⟨true, none, ⟨1, false, false⟩⟩, ⟨true, none, ⟨2, true, false⟩⟩,
        ⟨false, none, ⟨2, true, false⟩⟩, ⟨true, some 7, ⟨1, false, false⟩⟩,
        ⟨true, some 8, ⟨0, false, true⟩⟩] := by
  rw [(ringBuffer_refines_fifo ℕ 2).2]
  decide

end Vsos.Objects
