import Mathlib.Data.List.Basic
import Mathlib.Data.Nat.Bitwise
import Mathlib.Tactic.Ring

/-!
# The mouse driver

The mouse sends packets of three bytes: flags with the buttons and the signs, and the distances
along both axes. The driver starts to fill its buffer at the last place, so it looks at the flags of
a packet together with the distances of the packet before it. It then takes a distance for the
buttons that are held, and the buttons are compared with a distance from an earlier packet.
-/

namespace Vsos.Input

/-- `MouseMoveEvent`. -/
structure MouseMoveEvent where
  x : Int8
  y : Int8
  deriving DecidableEq, Repr

/-- `MouseButtonEvent`. -/
structure MouseButtonEvent where
  button : UInt8
  buttonUp : Bool
  deriving DecidableEq, Repr

/-- An event that the handlers are given. -/
inductive MouseEvent where
  | move (event : MouseMoveEvent)
  | button (event : MouseButtonEvent)
  deriving DecidableEq, Repr

/-- The move of an event. -/
def MouseEvent.move? : MouseEvent → Option MouseMoveEvent
  | .move event => some event
  | .button _ => none

/-- The button of an event. -/
def MouseEvent.button? : MouseEvent → Option MouseButtonEvent
  | .move _ => none
  | .button event => some event

/-- `MouseDriver`. -/
structure MouseDriver where
  buffer : Vector UInt8 3
  offset : Fin 3 := 2
  buttons : UInt8 := 0
  deriving DecidableEq, Repr

/-- A distance without the sign bit of the flags, which is moved to the ninth bit, as `int8_t`. -/
def relative (distance flags : UInt8) (shift : ℕ) : Int8 :=
  Int8.ofInt (distance.toNat - ((flags.toNat <<< shift) &&& 0x100 : ℕ))

/-- The event for a move. The y-axis is inverted. -/
def moveEvent (dx dy flags : UInt8) : MouseMoveEvent :=
  { x := relative dx flags 4, y := -relative dy flags 3 }

/-- The event for one button, raised when its bit has changed. -/
def raiseButton (buttons flags : UInt8) (i : ℕ) : List MouseEvent :=
  if flags.toNat &&& 1 <<< i ≠ buttons.toNat &&& 1 <<< i then
    if buttons.toNat &&& 1 <<< i ≠ 0 then
      [.button { button := UInt8.ofNat (i + 1), buttonUp := true }]
    else [.button { button := UInt8.ofNat (i + 1), buttonUp := false }]
  else []

/-- The events that are raised once the buffer is full. -/
def raiseEvents (buffer : Vector UInt8 3) (buttons : UInt8) : List MouseEvent :=
  let moves := if buffer[1] ≠ 0 ∨ buffer[2] ≠ 0 then
    [MouseEvent.move (moveEvent buffer[0] buffer[1] buffer[2])] else []
  moves ++ (List.range 3).flatMap (raiseButton buttons buffer[2])

/-- `MouseDriver::HandleInterrupt` once there is data. -/
def receive (d : MouseDriver) (data : UInt8) : MouseDriver × List MouseEvent :=
  let buffer := d.buffer.set d.offset data
  let offset := d.offset + 1
  if offset ≠ 0 then ({ d with buffer, offset }, [])
  else ({ buffer, offset, buttons := buffer[0] }, raiseEvents buffer d.buttons)

/-- `MouseDriver::HandleInterrupt`, by what it reads from the two ports. -/
def handleInterrupt (d : MouseDriver) (status data : UInt8) : MouseDriver × List MouseEvent :=
  if status &&& 0x20 = 0 then (d, []) else receive d data

/-- The events of some interrupts. -/
def handleAll (d : MouseDriver) : List (UInt8 × UInt8) → List MouseEvent
  | [] => []
  | (status, data) :: reads =>
    (handleInterrupt d status data).2 ++ handleAll (handleInterrupt d status data).1 reads

/-- The events of some bytes. -/
def receiveAll (d : MouseDriver) : List UInt8 → List MouseEvent
  | [] => []
  | data :: bytes => (receive d data).2 ++ receiveAll (receive d data).1 bytes

/-- What the mouse sends at a time. -/
structure Packet where
  flags : UInt8
  dx : UInt8
  dy : UInt8
  deriving DecidableEq, Repr

/-- The bytes of some packets. -/
def packetBytes (packets : List Packet) : List UInt8 :=
  packets.flatMap fun p => [p.flags, p.dx, p.dy]

/-- The changes of the buttons from one flags byte to another, the lower bit first. -/
def buttonChanges (old new : UInt8) : List MouseButtonEvent :=
  (List.range 3).flatMap fun i =>
    if new.toNat.testBit i = old.toNat.testBit i then []
    else [{ button := UInt8.ofNat (i + 1), buttonUp := old.toNat.testBit i }]

/-- The changes of the buttons along some flags bytes. -/
def allChanges (old : UInt8) : List UInt8 → List MouseButtonEvent
  | [] => []
  | new :: flags => buttonChanges old new ++ allChanges new flags

/-- The button events are the changes between the packets, and each move event is that of one
packet, all of which has been received. -/
def Decodes (d : MouseDriver) (packets : List Packet) : Prop :=
  ∀ reads : List (UInt8 × UInt8), (∀ read ∈ reads, read.1 &&& 0x20 ≠ 0) →
    reads.map Prod.snd = packetBytes packets →
      (handleAll d reads).filterMap MouseEvent.button? = allChanges 0 (packets.map Packet.flags) ∧
      ∀ received, received <+: reads →
        ∀ event ∈ (handleAll d received).filterMap MouseEvent.move?,
          ∃ k p, packets[k]? = some p ∧ 3 * (k + 1) ≤ received.length ∧
            event = moveEvent p.dx p.dy p.flags

/-- Two flags bytes with the same buttons. -/
def SameButtons (a b : UInt8) : Prop := ∀ i < 3, a.toNat.testBit i = b.toNat.testBit i

/-- At each packet, the byte that is taken for the buttons has those of the packet before. That
byte is `held`, and `next` at the packet after this one. -/
def KeepsButtons (held next old : UInt8) : List Packet → Prop
  | [] => True
  | p :: packets => SameButtons held old ∧ KeepsButtons next p.dx p.flags packets

/-- The changes of the buttons as the driver sees them. -/
def heldChanges (held next : UInt8) : List Packet → List MouseButtonEvent
  | [] => []
  | p :: packets => buttonChanges held p.flags ++ heldChanges next p.dx packets

section Buttons

variable {a b held next old new : UInt8}

/-- The mask for one button. -/
theorem and_shiftLeft (a : UInt8) (i : ℕ) :
    a.toNat &&& 1 <<< i = (a.toNat.testBit i).toNat * 2 ^ i := by
  rw [Nat.one_shiftLeft, Nat.and_two_pow]

/-- The loop over the buttons finds the changes. -/
theorem button_raiseButton (old new : UInt8) (i : ℕ) :
    (raiseButton old new i).filterMap MouseEvent.button? =
      if new.toNat.testBit i = old.toNat.testBit i then []
      else [{ button := UInt8.ofNat (i + 1), buttonUp := old.toNat.testBit i }] := by
  have hpow : 2 ^ i ≠ 0 := (Nat.two_pow_pos i).ne'
  rw [raiseButton, and_shiftLeft, and_shiftLeft]
  cases new.toNat.testBit i <;> cases old.toNat.testBit i <;>
    simp [MouseEvent.button?, hpow.symm]

/-- The loop over the buttons raises no move. -/
theorem move_raiseButton (old new : UInt8) (i : ℕ) :
    (raiseButton old new i).filterMap MouseEvent.move? = [] := by
  rw [raiseButton]
  split
  · split <;> rfl
  · rfl

/-- The event of a button is among the changes just when its bit has changed. -/
theorem mem_buttonChanges {i : ℕ} (hi : i < 3) :
    UInt8.ofNat (i + 1) ∈ (buttonChanges old new).map MouseButtonEvent.button ↔
      new.toNat.testBit i ≠ old.toNat.testBit i := by
  rw [buttonChanges, List.map_flatMap, List.mem_flatMap]
  constructor
  · rintro ⟨j, hj, hmem⟩
    split at hmem
    · cases hmem
    · next hchanged =>
      have hbutton : UInt8.ofNat (i + 1) = UInt8.ofNat (j + 1) := by simpa using hmem
      obtain rfl : i = j := by
        have hnat := congrArg UInt8.toNat hbutton
        rw [UInt8.toNat_ofNat', UInt8.toNat_ofNat'] at hnat
        have := List.mem_range.mp hj
        omega
      exact hchanged
  · intro hchanged
    refine ⟨i, List.mem_range.mpr hi, ?_⟩
    rw [if_neg hchanged]
    exact List.mem_singleton_self _

/-- Bytes with the same changes to a third have the same buttons. -/
theorem buttonChanges_inj (new : UInt8) :
    buttonChanges a new = buttonChanges b new ↔ SameButtons a b := by
  constructor
  · intro h i hi
    have hchanged : new.toNat.testBit i ≠ a.toNat.testBit i ↔
        new.toNat.testBit i ≠ b.toNat.testBit i := by
      rw [← mem_buttonChanges hi, h, mem_buttonChanges hi]
    revert hchanged
    cases new.toNat.testBit i <;> cases a.toNat.testBit i <;> cases b.toNat.testBit i <;> decide
  · intro h
    refine List.flatMap_congr fun i hi => ?_
    rw [h i (List.mem_range.mp hi)]

/-- At every packet the changes from the byte that is held are those from the flags before. -/
theorem heldChanges_eq_iff {packets : List Packet} :
    (∀ front, front <+: packets →
        heldChanges held next front = allChanges old (front.map Packet.flags)) ↔
      KeepsButtons held next old packets := by
  induction packets generalizing held next old with
  | nil => exact iff_of_true (fun front hfront => by rw [List.prefix_nil.mp hfront]; rfl) trivial
  | cons p packets ih =>
    rw [KeepsButtons, ← buttonChanges_inj p.flags, ← ih]
    constructor
    · intro h
      have hfirst := h [p] ⟨packets, rfl⟩
      rw [heldChanges, heldChanges, List.append_nil] at hfirst
      have hequal : buttonChanges held p.flags = buttonChanges old p.flags :=
        hfirst.trans (List.append_nil _)
      refine ⟨hequal, fun front hfront => ?_⟩
      have hlater := h (p :: front) (List.cons_prefix_cons.mpr ⟨rfl, hfront⟩)
      rw [heldChanges, hequal] at hlater
      exact List.append_cancel_left hlater
    · rintro ⟨hfirst, hlater⟩ front hfront
      cases front with
      | nil => rfl
      | cons q front =>
        obtain ⟨rfl, hrest⟩ := List.cons_prefix_cons.mp hfront
        rw [heldChanges, hfirst, hlater front hrest]
        rfl

end Buttons

section Packets

variable {dx dy flags held next old : UInt8} {packets : List Packet}

/-- The sign bit of the flags has no place in `int8_t`. -/
theorem relative_eq (distance flags : UInt8) (shift : ℕ) :
    relative distance flags shift = Int8.ofInt distance.toNat := by
  have hsign : (flags.toNat <<< shift) &&& 0x100 = ((flags.toNat <<< shift).testBit 8).toNat * 2 ^ 8 :=
    Nat.and_two_pow _ 8
  rw [relative, hsign, Int8.ofInt_sub]
  cases (flags.toNat <<< shift).testBit 8 <;> exact Int8.sub_zero _

/-- So a move is the same with the flags of any packet. -/
theorem moveEvent_eq (dx dy flags flags' : UInt8) :
    moveEvent dx dy flags = moveEvent dx dy flags' := by
  simp only [moveEvent, relative_eq]

/-- The driver between two packets, with the last one in its buffer. -/
def between (dx dy flags buttons : UInt8) : MouseDriver :=
  { buffer := #v[dx, dy, flags], offset := 2, buttons := buttons }

/-- The events by the bytes of the buffer. -/
theorem raiseEvents_eq :
    raiseEvents #v[dx, dy, flags] held =
      (if dy ≠ 0 ∨ flags ≠ 0 then [MouseEvent.move (moveEvent dx dy flags)] else []) ++
        (List.range 3).flatMap (raiseButton held flags) := rfl

/-- The button events are the changes to the flags in the buffer. -/
theorem button_raiseEvents :
    (raiseEvents #v[dx, dy, flags] held).filterMap MouseEvent.button? = buttonChanges held flags := by
  rw [raiseEvents_eq, List.filterMap_append, List.filterMap_flatMap]
  simp only [button_raiseButton, buttonChanges]
  split <;> rfl

/-- A move is raised unless the second distance and the flags are zero. -/
theorem move_raiseEvents {event : MouseMoveEvent} :
    event ∈ (raiseEvents #v[dx, dy, flags] held).filterMap MouseEvent.move? ↔
      (dy ≠ 0 ∨ flags ≠ 0) ∧ event = moveEvent dx dy flags := by
  rw [raiseEvents_eq, List.filterMap_append, List.filterMap_flatMap]
  simp only [move_raiseButton]
  split
  · next h => simp [MouseEvent.move?, h]
  · next h => simp [h]

/-- The first byte of a packet raises the events, and the others raise none. -/
theorem receiveAll_first (data : UInt8) (bytes : List UInt8) (hfew : bytes.length < 3) :
    receiveAll (between dx dy flags held) (data :: bytes) = raiseEvents #v[dx, dy, data] held := by
  rcases bytes with _ | ⟨_, _ | ⟨_, _ | ⟨_, _⟩⟩⟩
  · exact List.append_nil _
  · exact List.append_nil _
  · exact List.append_nil _
  · simp only [List.length_cons] at hfew
    omega

/-- The bytes of a packet, and those behind it. -/
theorem receiveAll_packet (p : Packet) (bytes : List UInt8) :
    receiveAll (between dx dy flags held) (p.flags :: p.dx :: p.dy :: bytes) =
      raiseEvents #v[dx, dy, p.flags] held ++ receiveAll (between p.dx p.dy p.flags dx) bytes := rfl

/-- The button events are the changes from the byte that is held. -/
theorem button_receiveAll :
    (receiveAll (between dx dy flags held) (packetBytes packets)).filterMap MouseEvent.button? =
      heldChanges held dx packets := by
  induction packets generalizing dx dy flags held with
  | nil => rfl
  | cons p packets ih =>
    show (receiveAll _ (p.flags :: p.dx :: p.dy :: packetBytes packets)).filterMap _ = _
    rw [receiveAll_packet, List.filterMap_append, button_raiseEvents, ih]
    rfl

/-- A move event is that of the bytes in the buffer at first, or that of a packet which has been
received. -/
theorem move_receiveAll {received : List UInt8} {event : MouseMoveEvent}
    (hreceived : received <+: packetBytes packets)
    (hevent : event ∈ (receiveAll (between dx dy flags held) received).filterMap MouseEvent.move?) :
    (∃ p, packets.head? = some p ∧ (dy ≠ 0 ∨ p.flags ≠ 0)) ∧ event = moveEvent dx dy flags ∨
      ∃ k p, packets[k]? = some p ∧ 3 * (k + 1) ≤ received.length ∧
        event = moveEvent p.dx p.dy p.flags := by
  induction packets generalizing dx dy flags held received with
  | nil =>
    rw [List.prefix_nil.mp hreceived] at hevent
    cases hevent
  | cons p packets ih =>
    have hfirst : event ∈ (raiseEvents #v[dx, dy, p.flags] held).filterMap MouseEvent.move? →
        (∃ q, (p :: packets).head? = some q ∧ (dy ≠ 0 ∨ q.flags ≠ 0)) ∧
          event = moveEvent dx dy flags := by
      intro h
      obtain ⟨hraised, rfl⟩ := move_raiseEvents.mp h
      exact ⟨⟨p, rfl, hraised⟩, moveEvent_eq ..⟩
    -- the events of this packet are raised at its first byte
    rcases received with _ | ⟨data, rest⟩
    · cases hevent
    obtain ⟨rfl, hrest⟩ := List.cons_prefix_cons.mp hreceived
    by_cases hfew : rest.length < 2
    · rw [receiveAll_first _ _ (by omega)] at hevent
      exact Or.inl (hfirst hevent)
    · obtain ⟨_, _, tail, rfl⟩ : ∃ x y tail, rest = x :: y :: tail := by
        rcases rest with _ | ⟨x, _ | ⟨y, tail⟩⟩
        · simp at hfew
        · simp at hfew
        · exact ⟨x, y, tail, rfl⟩
      obtain ⟨rfl, hbehind⟩ := List.cons_prefix_cons.mp hrest
      obtain ⟨rfl, htail⟩ := List.cons_prefix_cons.mp hbehind
      rw [receiveAll_packet, List.filterMap_append, List.mem_append] at hevent
      rcases hevent with hnow | hlater
      · exact Or.inl (hfirst hnow)
      · rcases ih htail hlater with ⟨-, rfl⟩ | ⟨k, q, hk, hlength, rfl⟩
        · exact Or.inr ⟨0, p, rfl, by simp, rfl⟩
        · refine Or.inr ⟨k + 1, q, hk, ?_, rfl⟩
          simp only [List.length_cons]
          omega

/-- With data at every interrupt, the bytes alone matter. -/
theorem handleAll_ready {d : MouseDriver} {reads : List (UInt8 × UInt8)}
    (hready : ∀ read ∈ reads, read.1 &&& 0x20 ≠ 0) :
    handleAll d reads = receiveAll d (reads.map Prod.snd) := by
  induction reads generalizing d with
  | nil => rfl
  | cons read reads ih =>
    obtain ⟨hfirst, hlater⟩ := List.forall_mem_cons.mp hready
    have hnow : handleInterrupt d read.1 read.2 = receive d read.2 := if_neg hfirst
    rw [handleAll, hnow, ih hlater]
    rfl

/-- Interrupts that all find data. -/
theorem ready_map (bytes : List UInt8) :
    ∀ read ∈ bytes.map (Prod.mk (0x20 : UInt8)), read.1 &&& 0x20 ≠ 0 := by
  intro read hread
  obtain ⟨data, -, rfl⟩ := List.mem_map.mp hread
  exact (by decide : (0x20 : UInt8) &&& 0x20 ≠ 0)

/-- The packets are decoded just when their bytes are. -/
theorem decodes_iff_bytes {d : MouseDriver} :
    Decodes d packets ↔
      (receiveAll d (packetBytes packets)).filterMap MouseEvent.button? =
          allChanges 0 (packets.map Packet.flags) ∧
        ∀ received, received <+: packetBytes packets →
          ∀ event ∈ (receiveAll d received).filterMap MouseEvent.move?,
            ∃ k p, packets[k]? = some p ∧ 3 * (k + 1) ≤ received.length ∧
              event = moveEvent p.dx p.dy p.flags := by
  constructor
  · intro h
    have hdata : ∀ bytes : List UInt8, (bytes.map (Prod.mk (0x20 : UInt8))).map Prod.snd = bytes := by
      intro bytes
      rw [List.map_map]
      exact List.map_id bytes
    obtain ⟨hbuttons, hmoves⟩ := h ((packetBytes packets).map (Prod.mk 0x20)) (ready_map _) (hdata _)
    rw [handleAll_ready (ready_map _), hdata] at hbuttons
    refine ⟨hbuttons, fun received hreceived event hevent => ?_⟩
    rw [← hdata received, ← handleAll_ready (ready_map _)] at hevent
    have hmove := hmoves _ (hreceived.map (Prod.mk 0x20)) event hevent
    rwa [List.length_map] at hmove
  · rintro ⟨hbuttons, hmoves⟩ reads hready hdata
    refine ⟨by rw [handleAll_ready hready, hdata, hbuttons], fun received hreceived event hevent => ?_⟩
    rw [handleAll_ready fun read hread => hready read (hreceived.subset hread)] at hevent
    have hmove := hmoves _ (hdata ▸ hreceived.map Prod.snd) event hevent
    rwa [List.length_map] at hmove

end Packets

/-- The packets of a stream are decoded all along just when no event is raised at the first flags
byte from what the buffer holds before it, and at each packet the byte that is taken for the
buttons has those of the packet before. -/
theorem decodes_iff (b₀ b₁ b₂ : UInt8) (packets : List Packet) :
    (∀ front, front <+: packets → Decodes { buffer := #v[b₀, b₁, b₂] } front) ↔
      (∀ p, packets.head? = some p → p.flags = 0 ∧ b₁ = 0) ∧ KeepsButtons 0 b₀ 0 packets := by
  have hfresh : ({ buffer := #v[b₀, b₁, b₂] } : MouseDriver) = between b₀ b₁ b₂ 0 := rfl
  simp only [hfresh, decodes_iff_bytes, button_receiveAll]
  rw [← heldChanges_eq_iff]
  constructor
  · intro h
    refine ⟨fun p hp => ?_, fun front hfront => (h front hfront).1⟩
    obtain ⟨rest, rfl⟩ := List.head?_eq_some_iff.mp hp
    obtain ⟨-, hmoves⟩ := h [p] ⟨rest, rfl⟩
    by_contra hraised
    have hevent : moveEvent b₀ b₁ p.flags ∈
        (receiveAll (between b₀ b₁ b₂ 0) [p.flags]).filterMap MouseEvent.move? := by
      rw [receiveAll_first _ _ (by decide), move_raiseEvents]
      exact ⟨by tauto, rfl⟩
    -- Only one byte has been received so far.
    obtain ⟨k, q, -, hlength, -⟩ := hmoves [p.flags] ⟨[p.dx, p.dy], rfl⟩ _ hevent
    rw [List.length_singleton] at hlength
    omega
  · rintro ⟨hquiet, hbuttons⟩ front hfront
    refine ⟨hbuttons front hfront, fun received hreceived event hevent => ?_⟩
    rcases move_receiveAll hreceived hevent with ⟨⟨p, hp, hraised⟩, -⟩ | harrived
    · have hhead : packets.head? = some p := by
        obtain ⟨back, rfl⟩ := hfront
        rw [List.head?_append, hp]
        rfl
      obtain ⟨hflags, hdy⟩ := hquiet p hhead
      rcases hraised with h | h
      · exact absurd hdy h
      · exact absurd hflags h
    · exact harrived

/-- A button is pressed and held, and the handlers are told twice. -/
theorem not_decodes : ¬ ∀ (b₀ b₁ b₂ : UInt8) (packets : List Packet),
    Decodes { buffer := #v[b₀, b₁, b₂] } packets := by
  intro h
  obtain ⟨hbuttons, -⟩ := h 0 0 0 [⟨0x09, 0, 0⟩, ⟨0x09, 0, 0⟩]
    ((packetBytes [⟨0x09, 0, 0⟩, ⟨0x09, 0, 0⟩]).map (Prod.mk 0x20)) (ready_map _) rfl
  exact absurd hbuttons (by decide)

end Vsos.Input
