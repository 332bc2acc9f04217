/-
The I2C slave driver and the register slave on top of it.

`Slave` is the driver of `imx_rt1060_i2c_driver.cpp`, generic in its client: its callbacks
act on the driver, the memory and a state of their own, and may report to the application.
What an interrupt finds in the status registers is an `Interrupt`; what it sends to the
master and what the callbacks report is its output, in order. Addresses are numbers, and
memory is a function of them.

`registerSlave` is the client of `i2c_register_slave.cpp`. `Layout` says where its own
receive buffer and the two buffers it serves lie: they are apart.
-/

import RFPowerDetector.Firmware.Defs
import RFPowerDetector.Library.Machine
import RFPowerDetector.Library.Memory

namespace RFPowerDetector.I2C

open Firmware Memory Transition

inductive I2CError where
  | ok
  | arbitrationLost
  | bufferOverflow
  | bufferUnderflow
  | invalidRequest
  | masterPinLowTimeout
  | masterNotReady
  | masterFifoError
  | masterFifosNotEmpty
  | addressNak
  | dataNak
  | bitError
deriving DecidableEq

/-! ### Buffers -/

/-- A buffer and the index of the next byte, which never passes its end. -/
structure I2CBuffer where
  buffer : ℕ
  size : ℕ
  nextIndex : ℕ
  within : nextIndex ≤ size

namespace I2CBuffer

def initialise (newBuffer newSize : ℕ) : I2CBuffer := ⟨newBuffer, newSize, 0, Nat.zero_le _⟩

def reset (b : I2CBuffer) : I2CBuffer := ⟨b.buffer, b.size, 0, Nat.zero_le _⟩

def initialised (b : I2CBuffer) : Prop := 0 < b.size

instance (b : I2CBuffer) : Decidable b.initialised := inferInstanceAs (Decidable (0 < b.size))

def hasDataAvailable (b : I2CBuffer) : Prop := b.nextIndex < b.size

instance (b : I2CBuffer) : Decidable b.hasDataAvailable :=
  inferInstanceAs (Decidable (b.nextIndex < b.size))

/-- `write(data)`: the buffer and the memory after it, or none if it was full. -/
def write (b : I2CBuffer) (memory : ℕ → Byte) (data : Byte) : Option (I2CBuffer × (ℕ → Byte)) :=
  if full : b.nextIndex = b.size then none
  else
    some (⟨b.buffer, b.size, b.nextIndex + 1, Nat.lt_of_le_of_ne b.within full⟩,
      Function.update memory (b.buffer + b.nextIndex) data)

/-- `read()`, whose caller has asked whether there is data. -/
def read (b : I2CBuffer) (memory : ℕ → Byte) (available : b.hasDataAvailable) :
    Byte × I2CBuffer :=
  (memory (b.buffer + b.nextIndex), ⟨b.buffer, b.size, b.nextIndex + 1, available⟩)

end I2CBuffer

/-! ### The driver -/

inductive SlaveState where
  | receiving
  | transmitting
  | idle
  | aborted
deriving DecidableEq

/-- `state >= State::idle`. -/
def SlaveState.finished : SlaveState → Bool
  | .receiving | .transmitting => false
  | .idle | .aborted => true

structure Slave where
  state : SlaveState
  error : I2CError
  addressCalled : BitVec 16
  rxBuffer : I2CBuffer
  txBuffer : I2CBuffer
  trailingByteSent : Bool

/-- The driver, the memory and the client's own state. -/
structure Port (κ : Type) where
  slave : Slave
  memory : ℕ → Byte
  client : κ

/-- What leaves an interrupt: a byte to the master, or a report to the application. -/
inductive Output (β : Type) where
  | sent (data : Byte)
  | called (report : β)
deriving DecidableEq

/-- The client's callbacks. -/
structure Callbacks (κ β : Type) where
  afterReceive : ℕ → BitVec 16 → Port κ → Port κ × List β
  beforeTransmit : BitVec 16 → Port κ → Port κ × List β
  afterTransmit : BitVec 16 → Port κ → Port κ × List β

/-- The flags of `SSR` and the data behind them. `FEF` is only cleared. -/
structure Interrupt where
  /-- `AVF`, with the address in `SASR`. -/
  addressValid : Option (BitVec 16)
  /-- `RSF` or `SDF`. -/
  frameEnd : Bool
  /-- `RDF`, with the `SOF` bit and the data of `SRDR`. -/
  received : Option (Bool × Byte)
  /-- `TDF`. -/
  requested : Bool
  /-- `BEF`. -/
  bitError : Bool

section Driver

variable {κ β : Type} (c : Callbacks κ β)

def Port.setState (p : Port κ) (state : SlaveState) : Port κ :=
  { p with slave := { p.slave with state := state } }

def Port.setError (p : Port κ) (error : I2CError) : Port κ :=
  { p with slave := { p.slave with error := error } }

def Port.setReceiveBuffer (p : Port κ) (buffer size : ℕ) : Port κ :=
  { p with slave := { p.slave with rxBuffer := .initialise buffer size } }

def Port.setTransmitBuffer (p : Port κ) (buffer size : ℕ) : Port κ :=
  { p with slave := { p.slave with txBuffer := .initialise buffer size } }

/-- `end_of_frame()`. -/
def endOfFrame (p : Port κ) : Port κ × List (Output β) :=
  match p.slave.state with
  | .receiving =>
      let called := c.afterReceive p.slave.rxBuffer.nextIndex p.slave.addressCalled p
      (called.1.setState .idle, called.2.map .called)
  | .transmitting =>
      let called := c.afterTransmit p.slave.addressCalled
        { p with slave := { p.slave with trailingByteSent := false } }
      (called.1.setState .idle, called.2.map .called)
  | .idle | .aborted => (p.setState .idle, [])

/-- The start of a frame of data: the buffer is used from its beginning. -/
def startReceiving (p : Port κ) : Port κ :=
  if p.slave.rxBuffer.initialised then
    { p with
      slave := { p.slave with
        error := .ok, rxBuffer := p.slave.rxBuffer.reset, state := .receiving } }
  else p.setError .ok

/-- A byte of a frame of data. -/
def storeReceived (data : Byte) (p : Port κ) : Port κ :=
  if p.slave.rxBuffer.initialised then
    match p.slave.rxBuffer.write p.memory data with
    | some (buffer, memory) =>
        { p with memory := memory, slave := { p.slave with rxBuffer := buffer } }
    | none => p.setError .bufferOverflow
  else p.setState .idle

/-- The branch of `RDF`. -/
def receiveData (startOfFrame : Bool) (data : Byte) (p : Port κ) : Port κ :=
  storeReceived data (if startOfFrame then startReceiving p else p)

/-- The byte that answers a request, from the beginning of the buffer in a new frame. -/
def answerRequest (startOfFrame : Bool) (p : Port κ) : Port κ × Byte :=
  if p.slave.txBuffer.initialised then
    let txBuffer := if startOfFrame then p.slave.txBuffer.reset else p.slave.txBuffer
    if available : txBuffer.hasDataAvailable then
      let taken := txBuffer.read p.memory available
      ({ p with slave := { p.slave with txBuffer := taken.2 } }, taken.1)
    else if p.slave.trailingByteSent then
      ({ p with slave := { p.slave with txBuffer := txBuffer, error := .bufferUnderflow } }, 0)
    else
      ({ p with slave := { p.slave with txBuffer := txBuffer, trailingByteSent := true } }, 0)
  else (p.setError .bufferUnderflow, 0)

/-- The branch of `TDF`. -/
def transmitData (p : Port κ) : Port κ × List (Output β) :=
  let startOfFrame := p.slave.state.finished
  let started : Port κ × List β :=
    if startOfFrame then
      c.beforeTransmit p.slave.addressCalled ((p.setError .ok).setState .transmitting)
    else (p, [])
  let answered := answerRequest startOfFrame started.1
  (answered.1, started.2.map .called ++ [.sent answered.2])

/-- The branch of `BEF`. -/
def abortTransfer (p : Port κ) : Port κ × List (Output β) :=
  endOfFrame c ((p.setState .aborted).setError .bitError)

/-- `_interrupt_service_routine()`. -/
def interruptServiceRoutine (i : Interrupt) (p : Port κ) : Port κ × List (Output β) :=
  let p := match i.addressValid with
    | some address => { p with slave := { p.slave with addressCalled := address } }
    | none => p
  let ended := if i.frameEnd then endOfFrame c p else (p, [])
  let p := match i.received with
    | some (startOfFrame, data) => receiveData startOfFrame data ended.1
    | none => ended.1
  let answered := if i.requested then transmitData c p else (p, [])
  let aborted := if i.bitError then abortTransfer c answered.1 else (answered.1, [])
  (aborted.1, ended.2 ++ answered.2 ++ aborted.2)

end Driver

/-! ### The register slave -/

/-- `REG_SLAVE_WRITE_BUFFER_LENGTH`. -/
def writeBufferLength : ℕ := 9

/-- Where the buffers of a register slave lie. -/
structure Layout where
  rxBuffer : ℕ
  mutableBuffer : ℕ
  mutableBufferSize : ℕ
  readOnlyBuffer : ℕ
  readOnlyBufferSize : ℕ
  rx_ne_mutable : ∀ i < writeBufferLength, ∀ j < mutableBufferSize,
    rxBuffer + i ≠ mutableBuffer + j
  rx_ne_readOnly : ∀ i < writeBufferLength, ∀ j < readOnlyBufferSize,
    rxBuffer + i ≠ readOnlyBuffer + j
  mutable_ne_readOnly : ∀ i < mutableBufferSize, ∀ j < readOnlyBufferSize,
    mutableBuffer + i ≠ readOnlyBuffer + j

/-- A call of the application's `after_read` or `after_write`. -/
inductive RegisterCall where
  | afterRead (theRegister : Byte)
  | afterWrite (theRegister : Byte) (numBytes : ℕ)
deriving DecidableEq

/-- `got_reg_num`. -/
abbrev GotRegNum := Bool

section RegisterSlave

variable (l : Layout)

def waitForRegNum (p : Port GotRegNum) : Port GotRegNum :=
  { (p.setReceiveBuffer l.rxBuffer writeBufferLength).setTransmitBuffer l.mutableBuffer 0 with
    client := false }

/-- A register number alone: the coming frame is aimed at its buffer. -/
def selectRegister (regNum : Byte) (p : Port GotRegNum) : Port GotRegNum :=
  if regNum.toNat < l.mutableBufferSize then
    let buffer := l.mutableBuffer + regNum.toNat
    -- a `uint8_t`
    let bufferSize := (l.mutableBufferSize - regNum.toNat) % 256
    (p.setReceiveBuffer buffer bufferSize).setTransmitBuffer buffer bufferSize
  else
    let p := p.setReceiveBuffer l.rxBuffer 0
    let offset := regNum.toNat - l.mutableBufferSize
    if offset < l.readOnlyBufferSize then
      p.setTransmitBuffer (l.readOnlyBuffer + offset) (l.readOnlyBufferSize - offset)
    else p.setTransmitBuffer l.readOnlyBuffer 0

/-- A register number and data in one frame of `len` bytes. -/
def copyReceived (regNum : Byte) (len : ℕ) (p : Port GotRegNum) : Port GotRegNum :=
  if regNum.toNat < l.mutableBufferSize then
    let bufferSize := (l.mutableBufferSize - regNum.toNat) % 256
    let copyLen := if bufferSize < len - 1 then bufferSize else len - 1
    { p with
      memory := store p.memory (l.mutableBuffer + regNum.toNat)
        (load p.memory (l.rxBuffer + 1) copyLen) }
  else p

/-- The end of `after_receive` when no register number is awaited to be used. -/
def finishWrite (numBytes : ℕ) (p : Port GotRegNum) : Port GotRegNum × List RegisterCall :=
  (waitForRegNum l p, [.afterWrite (p.memory l.rxBuffer) numBytes])

/-- `after_receive(len)`; `num_bytes` is a `uint8_t`. -/
def afterReceive (len : ℕ) (p : Port GotRegNum) : Port GotRegNum × List RegisterCall :=
  let gotRegNum := !p.client
  let p := { p with client := gotRegNum }
  if gotRegNum then
    let regNum := p.memory l.rxBuffer
    if 1 < len then
      finishWrite l ((len - 1) % 256) { copyReceived l regNum len p with client := false }
    else (selectRegister l regNum p, [])
  else finishWrite l (len % 256) p

def afterTransmit (p : Port GotRegNum) : Port GotRegNum × List RegisterCall :=
  (waitForRegNum l p, [.afterRead (p.memory l.rxBuffer)])

/-- The callbacks that `listen` attaches. -/
def registerSlave : Callbacks GotRegNum RegisterCall where
  afterReceive len _ p := afterReceive l len p
  beforeTransmit _ p := (p, [])
  afterTransmit _ p := afterTransmit l p

/-- The driver as constructed: its buffers are empty. -/
def Slave.declared : Slave where
  state := .idle
  error := .ok
  addressCalled := 0
  rxBuffer := .initialise 0 0
  txBuffer := .initialise 0 0
  trailingByteSent := false

/-- `listen(address)`: the receive buffer of the object is initialised with zeros. -/
def listening (memory : ℕ → Byte) : Port GotRegNum :=
  waitForRegNum l
    ⟨.declared, store memory l.rxBuffer (List.replicate writeBufferLength 0), false⟩

end RegisterSlave

end RFPowerDetector.I2C
