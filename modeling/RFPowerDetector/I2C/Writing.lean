/-
Frames of data.

The bytes of a frame fill the buffer it goes to: the slave's own, register number first, or
the selected register and those behind it. `storeReceived` has three cases, and each of the
places a byte can go to keeps the relation in its own way (`fill_selected`, `fill_first`,
`fill_next`). At its end the frame selects a register, is copied to one or was for one.
-/

import RFPowerDetector.I2C.Represents

namespace RFPowerDetector.I2C

open Firmware Memory Transition

variable {l : Layout} {p : Port GotRegNum} {d : Device}

/-! ### Data -/

section Store

variable {κ : Type} {q : Port κ} {data : Byte}

theorem storeReceived_none (closed : q.slave.rxBuffer.size = 0) :
    storeReceived data q = q.setState .idle := by
  simp [storeReceived, I2CBuffer.initialised, closed]

theorem storeReceived_full (opened : 0 < q.slave.rxBuffer.size)
    (full : q.slave.rxBuffer.nextIndex = q.slave.rxBuffer.size) :
    storeReceived data q = q.setError .bufferOverflow := by
  simp [storeReceived, I2CBuffer.initialised, I2CBuffer.write, opened, full]

theorem storeReceived_room (room : q.slave.rxBuffer.nextIndex < q.slave.rxBuffer.size) :
    storeReceived data q =
      { q with
        memory := Function.update q.memory
          (q.slave.rxBuffer.buffer + q.slave.rxBuffer.nextIndex) data
        slave := { q.slave with
          rxBuffer := ⟨q.slave.rxBuffer.buffer, q.slave.rxBuffer.size,
            q.slave.rxBuffer.nextIndex + 1, room⟩ } } := by
  simp [storeReceived, I2CBuffer.initialised, I2CBuffer.write, Nat.zero_lt_of_lt room, room.ne]

end Store

/-- The buffer that frames go to, filled further. -/
def Port.fill {κ : Type} (q : Port κ) (i : ℕ) (data : Byte) (rxBuffer : I2CBuffer) : Port κ :=
  { q with
    memory := Function.update q.memory (q.slave.rxBuffer.buffer + i) data
    slave := { q.slave with rxBuffer := rxBuffer } }

namespace Aimed

/-- A byte for the selected register. -/
theorem fill_selected (aimed : Aimed l p d) (selected : d.selected = true) {i : ℕ}
    (within : i < d.writeRoom l) (data : Byte) {rxBuffer : I2CBuffer}
    (buffer : rxBuffer.buffer = p.slave.rxBuffer.buffer)
    (size : rxBuffer.size = p.slave.rxBuffer.size) :
    Aimed l (p.fill i data rxBuffer)
      { d with file := Function.update d.file (d.register.toNat + i) data } := by
  rw [Device.writeRoom, if_pos selected] at within
  have inside : d.register.toNat < l.mutableBufferSize := by
    by_contra outside
    rw [Layout.room, if_neg outside] at within
    exact Nat.not_lt_zero i within
  obtain ⟨known, place⟩ := l.address_add (within.trans_le (l.room_le_reach _))
  have target : p.slave.rxBuffer.buffer + i = l.address (d.register.toNat + i) := by
    rw [place, aimed.rxBuffer, Device.writeBuffer, if_pos ⟨selected, inside⟩]
  exact {
    selected := aimed.selected
    register := by
      rw [← aimed.register]
      refine Function.update_of_ne ?_ _ _
      rw [target]
      exact l.rx_ne_address (i := 0) (by decide) known
    file := by
      intro r hr
      change Function.update p.memory (p.slave.rxBuffer.buffer + i) data (l.address r) =
        Function.update d.file (d.register.toNat + i) data r
      rw [target, Function.update_apply, Function.update_apply, aimed.file r hr]
      exact if_congr ⟨fun same => l.address_inj hr known same, fun same => same ▸ rfl⟩ rfl rfl
    rxBuffer := buffer.trans aimed.rxBuffer
    rxSize := size.trans aimed.rxSize
    txBuffer := aimed.txBuffer
    txSize := aimed.txSize }

/-- A byte for the slave's own buffer does not touch the registers. -/
theorem fill_file (aimed : Aimed l p d) (waiting : d.selected = false) {i : ℕ}
    (own : i < writeBufferLength) (data : Byte) (rxBuffer : I2CBuffer) :
    ∀ r < l.size, (p.fill i data rxBuffer).memory (l.address r) = d.file r := by
  intro r hr
  rw [← aimed.file r hr]
  refine Function.update_of_ne ?_ _ _
  rw [aimed.rxBuffer, Device.writeBuffer_waiting waiting]
  exact (l.rx_ne_address own hr).symm

/-- A register number. -/
theorem fill_first (aimed : Aimed l p d) (waiting : d.selected = false) (data : Byte)
    {rxBuffer : I2CBuffer} (buffer : rxBuffer.buffer = p.slave.rxBuffer.buffer)
    (size : rxBuffer.size = p.slave.rxBuffer.size) :
    Aimed l (p.fill 0 data rxBuffer) { d with register := data } where
  selected := aimed.selected
  register := by
    have own := aimed.rxBuffer
    rw [Device.writeBuffer_waiting waiting] at own
    rw [Port.fill, own]
    exact Function.update_self ..
  file := aimed.fill_file waiting (by decide) data rxBuffer
  rxBuffer := by
    rw [Device.writeBuffer_waiting (d := { d with register := data }) waiting,
      ← Device.writeBuffer_waiting waiting, ← aimed.rxBuffer]
    exact buffer
  rxSize := by
    rw [Device.writeRoom_waiting (d := { d with register := data }) waiting,
      ← Device.writeRoom_waiting (l := l) waiting, ← aimed.rxSize]
    exact size
  txBuffer opened := by
    rw [Device.readRoom_waiting (d := { d with register := data }) waiting] at opened
    exact absurd opened (Nat.lt_irrefl 0)
  txSize := by
    rw [Device.readRoom_waiting (d := { d with register := data }) waiting,
      ← Device.readRoom_waiting (l := l) waiting]
    exact aimed.txSize

/-- A byte behind a register number. -/
theorem fill_next (aimed : Aimed l p d) (waiting : d.selected = false) {i : ℕ} (later : 0 < i)
    (own : i < writeBufferLength) (data : Byte) {rxBuffer : I2CBuffer}
    (buffer : rxBuffer.buffer = p.slave.rxBuffer.buffer)
    (size : rxBuffer.size = p.slave.rxBuffer.size) :
    Aimed l (p.fill i data rxBuffer) d where
  selected := aimed.selected
  register := by
    rw [← aimed.register]
    refine Function.update_of_ne ?_ _ _
    rw [aimed.rxBuffer, Device.writeBuffer_waiting waiting]
    omega
  file := aimed.fill_file waiting own data rxBuffer
  rxBuffer := buffer.trans aimed.rxBuffer
  rxSize := size.trans aimed.rxSize
  txBuffer := aimed.txBuffer
  txSize := aimed.txSize

end Aimed

/-! ### Ends of frames -/

section Callback

variable (l) {p : Port GotRegNum}

theorem afterReceive_used (got : p.client = true) (len : ℕ) :
    afterReceive l len p = finishWrite l (len % 256) { p with client := false } := by
  simp [afterReceive, got]

theorem afterReceive_number (waiting : p.client = false) :
    afterReceive l 1 p = (selectRegister l (p.memory l.rxBuffer) { p with client := true }, []) := by
  simp [afterReceive, waiting]

theorem afterReceive_data (waiting : p.client = false) {len : ℕ} (more : 1 < len) :
    afterReceive l len p =
      finishWrite l ((len - 1) % 256)
        { copyReceived l (p.memory l.rxBuffer) len { p with client := true } with
          client := false } := by
  simp [afterReceive, waiting, more]

/-- Aiming the buffers leaves the errors of the last frame. -/
theorem selectRegister_slave (regNum : Byte) (p : Port GotRegNum) :
    (selectRegister l regNum p).slave.error = p.slave.error ∧
      (selectRegister l regNum p).slave.trailingByteSent = p.slave.trailingByteSent := by
  unfold selectRegister
  split
  · exact ⟨rfl, rfl⟩
  · dsimp only
    split <;> exact ⟨rfl, rfl⟩

theorem copyReceived_slave (regNum : Byte) (len : ℕ) (p : Port GotRegNum) :
    (copyReceived l regNum len p).slave = p.slave := by
  unfold copyReceived
  split <;> rfl

/-- The copy does not depend on the flag, which is down again behind it. -/
theorem copyReceived_client (waiting : p.client = false) (regNum : Byte) (len : ℕ) :
    { copyReceived l regNum len { p with client := true } with client := false } =
      copyReceived l regNum len p := by
  unfold copyReceived
  split <;> simp [← waiting]

end Callback

namespace Aimed

/-- A register number alone. -/
theorem select (aimed : Aimed l p d) :
    Aimed l (selectRegister l d.register { p with client := true }) { d with selected := true } := by
  unfold selectRegister
  split
  case isTrue inside =>
      have address := l.address_mutable inside
      have room : l.room d.register.toNat = (l.mutableBufferSize - d.register.toNat) % 256 :=
        if_pos inside
      have reach : l.reach d.register.toNat = (l.mutableBufferSize - d.register.toNat) % 256 :=
        if_pos inside
      exact {
        selected := rfl
        register := aimed.register
        file := aimed.file
        rxBuffer := ((if_pos ⟨rfl, inside⟩).trans address).symm
        rxSize := room.symm
        txBuffer := fun _ => address.symm
        txSize := reach.symm }
  case isFalse outside =>
      have room : l.room d.register.toNat = 0 := if_neg outside
      have reach : l.reach d.register.toNat = l.size - d.register.toNat := if_neg outside
      have size : l.size = l.mutableBufferSize + l.readOnlyBufferSize := rfl
      dsimp only
      split
      case isTrue known =>
          exact {
            selected := rfl
            register := aimed.register
            file := aimed.file
            rxBuffer := (if_neg fun h => outside h.2).symm
            rxSize := room.symm
            txBuffer := fun _ => (if_neg outside).symm
            txSize := by
              change l.readOnlyBufferSize - _ = l.reach d.register.toNat
              omega }
      case isFalse unknown =>
          have closed : l.reach d.register.toNat = 0 := by omega
          exact {
            selected := rfl
            register := aimed.register
            file := aimed.file
            rxBuffer := (if_neg fun h => outside h.2).symm
            rxSize := room.symm
            txBuffer := fun opened => absurd opened (closed ▸ Nat.lt_irrefl 0)
            txSize := closed.symm }

/-- A register number and data. -/
theorem copy (aimed : Aimed l p d) {rest : List Byte}
    (kept : load p.memory (l.rxBuffer + 1) (min rest.length 8) = rest.take 8) :
    Aimed l (copyReceived l d.register (min (rest.length + 1) writeBufferLength) p)
      { d with
        file := store d.file d.register.toNat
          ((rest.take (writeBufferLength - 1)).take (l.room d.register.toNat)) } := by
  have length : min (rest.length + 1) writeBufferLength - 1 = min rest.length 8 := by
    rw [writeBufferLength]
    omega
  unfold copyReceived
  split
  case isTrue inside =>
      have room : l.room d.register.toNat = (l.mutableBufferSize - d.register.toNat) % 256 :=
        if_pos inside
      have bytes : load p.memory (l.rxBuffer + 1)
          (if l.room d.register.toNat < min rest.length 8 then l.room d.register.toNat
            else min rest.length 8) =
          (rest.take (writeBufferLength - 1)).take (l.room d.register.toNat) := by
        rw [writeBufferLength, ← kept, take_load, min_def]
        congr 1
        split <;> split <;> omega
      have short := l.room_le d.register.toNat
      rw [length, ← room]
      dsimp only
      rw [bytes]
      generalize stored : (rest.take (writeBufferLength - 1)).take (l.room d.register.toNat) = data
      have within : data.length ≤ l.mutableBufferSize - d.register.toNat := by
        rw [← stored, List.length_take]
        omega
      exact { aimed with
        register := by
          refine (store_apart _ fun i hi => ?_).trans aimed.register
          rw [Nat.add_assoc]
          exact l.rx_ne_mutable 0 (by decide) _ (by omega)
        file := by
          intro r hr
          change store p.memory _ data (l.address r) = store d.file _ data r
          have byte := aimed.file r hr
          rcases lt_or_ge r l.mutableBufferSize with changed | fixed
          · rw [l.address_mutable changed] at byte ⊢
            rw [store_add, store, store, byte]
          · rw [store_apart, byte, store_outside _ (.inr (by omega))]
            intro i hi same
            rw [Layout.address, if_neg fixed.not_gt, Nat.add_assoc] at same
            rw [Layout.size] at hr
            exact l.mutable_ne_readOnly _ (by omega) _ (by omega) same.symm }
  case isFalse outside =>
      have closed : l.room d.register.toNat = 0 := if_neg outside
      rw [closed, List.take_zero, store_nil]
      exact { aimed with }

end Aimed

/-- A buffer without room is a selected register's. -/
theorem Device.selected_of_closed (closed : d.writeRoom l = 0) : d.selected = true := by
  by_contra waiting
  rw [Device.writeRoom_waiting (Bool.eq_false_of_not_eq_true waiting)] at closed
  cases closed

namespace Represents

/-- A first byte that nothing is kept of. -/
theorem first_closed (related : Represents l p d) (trailing : p.slave.trailingByteSent = d.trailing)
    (closed : d.writeRoom l = 0) (data : Byte) :
    Represents l (storeReceived data (p.setError .ok)) (d.receiveFirst l data) := by
  have selected := Device.selected_of_closed closed
  have same : d.receiveFirst l data = { d with frame := .writing data [], error := .ok } := by
    simp [Device.receiveFirst, selected, closed]
  have index := p.slave.rxBuffer.within
  rw [related.rxSize, closed] at index
  rw [storeReceived_none (q := p.setError .ok) (related.rxSize.trans closed), same]
  exact { related with
    error := rfl
    trailing := trailing.trans (Bool.or_false _).symm
    frame := by
      refine ⟨?_, ?_, fun waiting => by cases selected.symm.trans waiting⟩
      · change SlaveState.idle = if 0 < d.writeRoom l then _ else _
        simp [closed]
      · change p.slave.rxBuffer.nextIndex = min 1 (d.writeRoom l)
        omega }

/-- The first byte of a frame of data. -/
theorem receiveFirst (related : Represents l p d) (idle : d.frame = .idle) (data : Byte) :
    Represents l (receiveData true data p) (d.receiveFirst l data) := by
  have trailing : p.slave.trailingByteSent = d.trailing := by
    rw [related.trailing, Device.overread, idle, Bool.or_false]
  change Represents l (storeReceived data (startReceiving p)) _
  unfold startReceiving
  split
  case isFalse closed =>
      rw [I2CBuffer.initialised, related.rxSize, Nat.pos_iff_ne_zero, not_not] at closed
      exact related.first_closed trailing closed data
  case isTrue opened =>
      rw [storeReceived_room (by exact opened)]
      rw [I2CBuffer.initialised, related.rxSize] at opened
      have receiving : SlaveState.receiving = if 0 < d.writeRoom l then .receiving else .idle :=
        (if_pos opened).symm
      have index : 0 + 1 = min (0 + 1) (d.writeRoom l) := by omega
      cases selected : d.selected with
      | true =>
          have same : d.receiveFirst l data =
              { d with
                file := Function.update d.file d.register.toNat data
                frame := .writing data []
                error := .ok } := by
            simp [Device.receiveFirst, selected, opened]
          rw [same]
          exact { related.fill_selected selected opened data rfl rfl with
            error := rfl
            trailing := trailing.trans (Bool.or_false _).symm
            frame := ⟨receiving, index, fun waiting => by cases selected.symm.trans waiting⟩ }
      | false =>
          have same : d.receiveFirst l data =
              { d with register := data, frame := .writing data [], error := .ok } := by
            simp [Device.receiveFirst, selected]
          have room : d.writeRoom l = (d.receiveFirst l data).writeRoom l := by
            rw [same, Device.writeRoom_waiting selected]
            exact (Device.writeRoom_waiting (d := { d with register := data }) selected).symm
          rw [room] at receiving index
          rw [same] at receiving index ⊢
          exact { related.fill_first selected data rfl rfl with
            error := rfl
            trailing := trailing.trans (Bool.or_false _).symm
            frame := ⟨receiving, index, fun _ => rfl⟩ }

section Next

variable {first : Byte} {rest : List Byte}

/-- A further byte that nothing is kept of. -/
theorem next_closed (related : Represents l p d) (follows : Follows l p d (.writing first rest))
    (trailing : p.slave.trailingByteSent = d.trailing) (closed : d.writeRoom l = 0) (data : Byte) :
    Represents l (storeReceived data p) (d.receiveNext l first rest data) := by
  have selected := Device.selected_of_closed closed
  have same : d.receiveNext l first rest data =
      { d with frame := .writing first (rest ++ [data]) } := by
    simp [Device.receiveNext, closed]
  obtain ⟨-, index, -⟩ := follows
  rw [storeReceived_none (related.rxSize.trans closed), same]
  exact { related with
    trailing := trailing.trans (Bool.or_false _).symm
    frame := by
      refine ⟨?_, ?_, fun waiting => by cases selected.symm.trans waiting⟩
      · change SlaveState.idle = if 0 < d.writeRoom l then _ else _
        simp [closed]
      · change p.slave.rxBuffer.nextIndex = min _ (d.writeRoom l)
        omega }

/-- A further byte for which the buffer has no room left. -/
theorem next_full (related : Represents l p d) (follows : Follows l p d (.writing first rest))
    (trailing : p.slave.trailingByteSent = d.trailing) (opened : 0 < d.writeRoom l)
    (full : d.writeRoom l ≤ rest.length + 1) (data : Byte) :
    Represents l (storeReceived data p) (d.receiveNext l first rest data) := by
  obtain ⟨state, index, kept⟩ := follows
  have length : (rest ++ [data]).length = rest.length + 1 := by
    rw [List.length_append, List.length_singleton]
  have last : p.slave.rxBuffer.nextIndex = p.slave.rxBuffer.size := by
    rw [related.rxSize]
    omega
  have same : d.receiveNext l first rest data =
      { d with frame := .writing first (rest ++ [data]), error := .bufferOverflow } := by
    simp [Device.receiveNext, opened, full, full.not_gt]
  have kept' : d.selected = false → load p.memory (l.rxBuffer + 1)
      (min (rest ++ [data]).length 8) = (rest ++ [data]).take 8 := by
    intro waiting
    rw [Device.writeRoom_waiting waiting, writeBufferLength] at full
    rw [List.take_append_of_le_length (by omega), ← kept waiting]
    congr 1
    omega
  rw [storeReceived_full (opened.trans_eq related.rxSize.symm) last, same]
  exact { related with
    error := rfl
    trailing := trailing.trans (Bool.or_false _).symm
    frame := by
      refine ⟨state, ?_, kept'⟩
      change p.slave.rxBuffer.nextIndex = min _ (d.writeRoom l)
      omega }

/-- A further byte that is kept. -/
theorem next_room (related : Represents l p d) (follows : Follows l p d (.writing first rest))
    (trailing : p.slave.trailingByteSent = d.trailing) (room : rest.length + 1 < d.writeRoom l)
    (data : Byte) :
    Represents l (storeReceived data p) (d.receiveNext l first rest data) := by
  obtain ⟨receiving, index, kept⟩ := follows
  have length : (rest ++ [data]).length = rest.length + 1 := by
    rw [List.length_append, List.length_singleton]
  have place : p.slave.rxBuffer.nextIndex = rest.length + 1 := by omega
  have next : p.slave.rxBuffer.nextIndex < p.slave.rxBuffer.size := by
    rwa [place, related.rxSize]
  have index' : p.slave.rxBuffer.nextIndex + 1 =
      min ((rest ++ [data]).length + 1) (d.writeRoom l) := by omega
  rw [storeReceived_room next]
  cases selected : d.selected with
  | true =>
      have same : d.receiveNext l first rest data =
          { d with
            file := Function.update d.file (d.register.toNat + (rest.length + 1)) data
            frame := .writing first (rest ++ [data]) } := by
        simp [Device.receiveNext, selected, room, room.not_ge]
      rw [same, ← place]
      exact { related.fill_selected selected (place.trans_lt room) data rfl rfl with
        error := related.error
        trailing := trailing.trans (Bool.or_false _).symm
        frame := ⟨receiving, index', fun waiting => by cases selected.symm.trans waiting⟩ }
  | false =>
      have same : d.receiveNext l first rest data =
          { d with frame := .writing first (rest ++ [data]) } := by
        simp [Device.receiveNext, selected, room.not_ge]
      have own : rest.length + 1 < writeBufferLength :=
        room.trans_eq (Device.writeRoom_waiting selected)
      have behind : load (Function.update p.memory
          (p.slave.rxBuffer.buffer + p.slave.rxBuffer.nextIndex) data) (l.rxBuffer + 1)
          (min (rest ++ [data]).length 8) = (rest ++ [data]).take 8 := by
        have before := kept selected
        rw [writeBufferLength] at own
        rw [min_eq_left (by omega), List.take_of_length_le (by omega)] at before ⊢
        rw [related.rxBuffer, Device.writeBuffer_waiting selected, place, length,
          ← Nat.add_assoc, Nat.add_right_comm, load_update_succ, before]
      rw [same]
      exact { related.fill_next selected (place ▸ Nat.succ_pos _) (place ▸ own) data rfl rfl with
        error := related.error
        trailing := trailing.trans (Bool.or_false _).symm
        frame := ⟨receiving, index', fun _ => behind⟩ }

/-- A further byte. -/
theorem receiveNext (related : Represents l p d) (frame : d.frame = .writing first rest)
    (data : Byte) : Represents l (receiveData false data p) (d.receiveNext l first rest data) := by
  have follows := related.frame
  rw [frame] at follows
  have trailing : p.slave.trailingByteSent = d.trailing := by
    rw [related.trailing, Device.overread, frame, Bool.or_false]
  rcases Nat.eq_zero_or_pos (d.writeRoom l) with closed | opened
  · exact related.next_closed follows trailing closed data
  · rcases lt_or_ge (rest.length + 1) (d.writeRoom l) with room | full
    · exact related.next_room follows trailing room data
    · exact related.next_full follows trailing opened full data

end Next

/-- The end of a frame for a selected register. -/
theorem end_selected (related : Represents l p d) {first : Byte} {rest : List Byte}
    (trailing : p.slave.trailingByteSent = d.trailing)
    (frame : Follows l p d (.writing first rest)) (selected : d.selected = true) :
    Represents l (endOfFrame (registerSlave l) p).1 (d.endWriting l rest).1 ∧
      (endOfFrame (registerSlave l) p).2 = (d.endWriting l rest).2 := by
  obtain ⟨state, index, -⟩ := frame
  rcases Nat.eq_zero_or_pos (d.writeRoom l) with closed | opened
  · rw [if_neg (closed ▸ Nat.lt_irrefl 0)] at state
    have ended : d.endWriting l rest = ({ d with frame := .idle }, []) := by
      simp [Device.endWriting, selected, closed]
    simp only [endOfFrame, state, ended]
    exact ⟨{ related with
      trailing := trailing.trans (Bool.or_false _).symm
      frame := rfl }, trivial⟩
  · rw [if_pos opened] at state
    have ended : d.endWriting l rest = ({ d with frame := .idle, selected := false },
        [.called (.afterWrite d.register (min (rest.length + 1) (d.writeRoom l)))]) := by
      simp [Device.endWriting, selected, opened]
    have short : d.writeRoom l < 256 := by
      rw [Device.writeRoom, if_pos selected]
      exact l.room_lt _
    have called := afterReceive_used l (related.selected.trans selected)
      p.slave.rxBuffer.nextIndex
    rw [index, Nat.mod_eq_of_lt (by omega), ← index] at called
    simp only [endOfFrame, state, ended, registerSlave, called]
    refine ⟨wait related.register related.file related.error trailing, ?_⟩
    rw [← related.register, ← index]
    rfl

/-- The end of a frame that has a register number first. -/
theorem end_waiting (related : Represents l p d) {first : Byte} {rest : List Byte}
    (trailing : p.slave.trailingByteSent = d.trailing)
    (frame : Follows l p d (.writing first rest)) (waiting : d.selected = false) :
    Represents l (endOfFrame (registerSlave l) p).1 (d.endWriting l rest).1 ∧
      (endOfFrame (registerSlave l) p).2 = (d.endWriting l rest).2 := by
  obtain ⟨state, index, kept⟩ := frame
  have client := related.selected.trans waiting
  have own := Device.writeRoom_waiting (l := l) waiting
  rw [if_pos (own ▸ by decide)] at state
  rw [own] at index
  cases rest with
  | nil =>
      have ended : d.endWriting l [] = ({ d with frame := .idle, selected := true }, []) := by
        simp [Device.endWriting, waiting]
      have called := afterReceive_number l client
      rw [related.register] at called
      have one : p.slave.rxBuffer.nextIndex = 1 := index
      simp only [endOfFrame, state, ended, registerSlave, one, called]
      obtain ⟨error, flag⟩ := selectRegister_slave l d.register { p with client := true }
      exact ⟨{ related.select with
        error := error.trans related.error
        trailing := (flag.trans trailing).trans (Bool.or_false _).symm
        frame := rfl }, rfl⟩
  | cons second rest =>
      have ended : d.endWriting l (second :: rest) =
          ({ d with
              frame := .idle
              selected := false
              file := store d.file d.register.toNat
                (((second :: rest).take (writeBufferLength - 1)).take
                  (l.room d.register.toNat)) },
            [.called (.afterWrite d.register
              ((second :: rest).take (writeBufferLength - 1)).length)]) := by
        simp [Device.endWriting, waiting]
      have more : 1 < p.slave.rxBuffer.nextIndex := by
        rw [index, List.length_cons, writeBufferLength]
        omega
      have place : (p.slave.rxBuffer.nextIndex - 1) % 256 =
          ((second :: rest).take (writeBufferLength - 1)).length := by
        rw [index, List.length_take, List.length_cons, writeBufferLength]
        omega
      have called := afterReceive_data l client more
      rw [related.register, copyReceived_client l client, place] at called
      have copied := related.copy (kept waiting)
      rw [← index] at copied
      have slave := copyReceived_slave l d.register p.slave.rxBuffer.nextIndex p
      simp only [endOfFrame, state, ended, registerSlave, called]
      refine ⟨wait copied.register copied.file ((congrArg Slave.error slave).trans related.error)
        ((congrArg Slave.trailingByteSent slave).trans trailing), ?_⟩
      exact congrArg (fun r => [Output.called (RegisterCall.afterWrite r _)]) copied.register

/-- The end of a frame of data. -/
theorem endWriting (related : Represents l p d) {first : Byte} {rest : List Byte}
    (trailing : p.slave.trailingByteSent = d.trailing)
    (frame : Follows l p d (.writing first rest)) :
    Represents l (endOfFrame (registerSlave l) p).1 (d.endWriting l rest).1 ∧
      (endOfFrame (registerSlave l) p).2 = (d.endWriting l rest).2 := by
  cases selected : d.selected with
  | true => exact related.end_selected trailing frame selected
  | false => exact related.end_waiting trailing frame selected

end Represents

end RFPowerDetector.I2C
