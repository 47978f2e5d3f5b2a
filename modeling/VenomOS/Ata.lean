/-
The ATA driver of kernel/ata.cpp, as programs over input and output ports, and
the protocol it keeps to on every device.
-/
import VenomOS.Interaction

namespace VenomOS

namespace Ata

open Interaction Program

def portData : UInt16 := 0x1F0
def portSectorCount : UInt16 := 0x1F2
def portLbaLow : UInt16 := 0x1F3
def portLbaMid : UInt16 := 0x1F4
def portLbaHigh : UInt16 := 0x1F5
def portDriveHead : UInt16 := 0x1F6
/-- PORT_STATUS for reads, PORT_COMMAND for writes. -/
def portStatus : UInt16 := 0x1F7
def portCommand : UInt16 := 0x1F7
def portAltStatus : UInt16 := 0x3F6

def statusErr : UInt8 := (1 : UInt8) <<< 0
def statusDrq : UInt8 := (1 : UInt8) <<< 3
def statusBsy : UInt8 := (1 : UInt8) <<< 7

def cmdReadSectors : UInt8 := 0x20
def cmdWriteSectors : UInt8 := 0x30
def cmdCacheFlush : UInt8 := 0xE7

def driveMasterLba : UInt8 := 0xE0

/-- The bound of the polling loops. -/
def attempts : Nat := 100000

/-- SECTOR_SIZE / 2 -/
def sectorWords : Nat := 256

def ioDelay400ns : PortProgram Unit := do
  let _ ← inb portAltStatus
  let _ ← inb portAltStatus
  let _ ← inb portAltStatus
  let _ ← inb portAltStatus

def waitNotBusy : Nat → PortProgram Bool
  | 0 => pure false
  | left + 1 => do
      let status ← inb portStatus
      if status &&& statusBsy == 0 then pure true else waitNotBusy left

def waitForData : Nat → PortProgram Bool
  | 0 => pure false
  | left + 1 => do
      let status ← inb portStatus
      if status &&& statusErr != 0 then pure false
      else if status &&& statusDrq != 0 then pure true
      else waitForData left

def selectDriveLba (lba : UInt32) : PortProgram Unit := do
  outb portDriveHead
    (driveMasterLba.toUInt32 ||| ((lba >>> 24) &&& 0x0F)).toUInt8
  ioDelay400ns

/-- The value of fault_countdown after the call is the second component. -/
def shouldInjectFault (faultCountdown : Int) : Bool × Int :=
  if faultCountdown < 0 then (false, faultCountdown)
  else if faultCountdown = 0 then (true, -1)
  else (false, faultCountdown - 1)

/-- The registers of a transfer, and its command. -/
def startTransfer (lba count : UInt32) (command : UInt8) : PortProgram Unit := do
  outb portSectorCount count.toUInt8
  outb portLbaLow (lba &&& 0xFF).toUInt8
  outb portLbaMid ((lba >>> 8) &&& 0xFF).toUInt8
  outb portLbaHigh ((lba >>> 16) &&& 0xFF).toUInt8
  outb portCommand command

/-- The inner loop of read_sectors; it stores from index `i` on. -/
def readWords : Nat → Nat → (Nat → UInt16) → PortProgram (Nat → UInt16)
  | 0, _, words => pure words
  | left + 1, i, words => do
      let word ← inw portData
      readWords left (i + 1) (Function.update words i word)

def readLoop : Nat → Nat → (Nat → UInt16) →
    PortProgram (Bool × (Nat → UInt16))
  | 0, _, words => pure (true, words)
  | left + 1, sector, words => do
      if ← waitForData attempts then
        let words ← readWords sectorWords (sector * sectorWords) words
        readLoop left (sector + 1) words
      else pure (false, words)

/-- read_sectors after the check for an injected fault. -/
def readTransfer (lba count : UInt32) (words : Nat → UInt16) :
    PortProgram (Bool × (Nat → UInt16)) := do
  selectDriveLba lba
  if ← waitNotBusy attempts then
    startTransfer lba count cmdReadSectors
    readLoop count.toNat 0 words
  else pure (false, words)

def readSectors (faultCountdown : Int) (lba count : UInt32)
    (words : Nat → UInt16) : PortProgram (Bool × (Nat → UInt16)) :=
  if count == 0 then pure (true, words)
  else if (shouldInjectFault faultCountdown).1 then pure (false, words)
  else readTransfer lba count words

/-- The inner loop of write_sectors. -/
def writeWords (words : Nat → UInt16) : Nat → Nat → PortProgram Unit
  | 0, _ => pure ()
  | left + 1, i => do
      outw portData (words i)
      writeWords words left (i + 1)

def writeLoop (words : Nat → UInt16) : Nat → Nat → PortProgram Bool
  | 0, _ => pure true
  | left + 1, sector => do
      if ← waitForData attempts then
        writeWords words sectorWords (sector * sectorWords)
        writeLoop words left (sector + 1)
      else pure false

/-- write_sectors after the check for an injected fault. -/
def writeTransfer (lba count : UInt32) (words : Nat → UInt16) :
    PortProgram Bool := do
  selectDriveLba lba
  if ← waitNotBusy attempts then
    startTransfer lba count cmdWriteSectors
    if ← writeLoop words count.toNat 0 then
      outb portCommand cmdCacheFlush
      waitNotBusy attempts
    else pure false
  else pure false

def writeSectors (faultCountdown : Int) (lba count : UInt32)
    (words : Nat → UInt16) : PortProgram Bool :=
  if count == 0 then pure true
  else if (shouldInjectFault faultCountdown).1 then pure false
  else writeTransfer lba count words

/-- What a monitor has seen: the registers written since the drive was selected,
whether the drive was seen not busy, the command, the words that the drive has
offered or asked for, and the words that were moved. -/
structure Protocol where
  head : Option UInt8
  ready : Bool
  count : Option UInt8
  low : Option UInt8
  mid : Option UInt8
  high : Option UInt8
  command : Option UInt8
  granted : Nat
  moved : List UInt16

namespace Protocol

def start : Protocol := ⟨none, false, none, none, none, none, none, 0, []⟩

/-- The head register with the drive selected anew. -/
def select (value : UInt8) : Protocol := { start with head := some value }

/-- A command that moves data. -/
def Moves (command : UInt8) : Prop :=
  command = cmdReadSectors ∨ command = cmdWriteSectors

instance (command : UInt8) : Decidable (Moves command) :=
  inferInstanceAs (Decidable (_ ∨ _))

/-- The words of one sector may be moved. -/
def grant (m : Protocol) : Protocol := { m with granted := sectorWords }

/-- A read of the status. -/
def poll (m : Protocol) (status : UInt8) : Protocol :=
  match m.command with
  | none => { m with ready := m.ready || status &&& statusBsy == 0 }
  | some command =>
      if Moves command ∧ status &&& statusErr = 0 ∧ status &&& statusDrq ≠ 0
      then m.grant else m

def move (m : Protocol) (word : UInt16) : Protocol :=
  { m with granted := m.granted - 1, moved := m.moved ++ [word] }

/-- The registers of a command are all written. -/
def Complete (m : Protocol) : Prop :=
  m.ready ∧ m.command = none ∧ m.head ≠ none ∧ m.count ≠ none ∧ m.low ≠ none ∧
    m.mid ≠ none ∧ m.high ≠ none

instance (m : Protocol) : Decidable m.Complete :=
  inferInstanceAs (Decidable (_ ∧ _))

/-- A command to move data needs a drive that is not busy and a complete set of
registers; the cache is flushed after data was written. -/
def issue (m : Protocol) (command : UInt8) : Option Protocol :=
  if command = cmdCacheFlush ∧ m.command = some cmdWriteSectors ∨
      Moves command ∧ m.Complete
  then some { m with command := some command }
  else none

/-- The count and the low 24 bits of the address are written only while the
drive is not busy.  The drive/head register, with the four high bits, comes
before the first read of the status. -/
def setRegister (m : Protocol) (port : UInt16) (value : UInt8) :
    Option Protocol :=
  if port = portDriveHead then some (select value)
  else if port = portCommand then m.issue value
  else if !m.ready || m.command ≠ none then none
  else if port = portSectorCount then some { m with count := some value }
  else if port = portLbaLow then some { m with low := some value }
  else if port = portLbaMid then some { m with mid := some value }
  else if port = portLbaHigh then some { m with high := some value }
  else none

/-- The rules.  Between two reads of the status whole sectors are moved, in the
direction of the command, and nothing else is done meanwhile. -/
def allow (m : Protocol) : Access Port.Reply → Option Protocol
  | ⟨.inb port, status⟩ =>
      if port = portAltStatus then some m
      else if port = portStatus ∧ m.granted = 0 then some (m.poll status)
      else none
  | ⟨.inw port, word⟩ =>
      if port = portData ∧ m.command = some cmdReadSectors ∧ 0 < m.granted
      then some (m.move word) else none
  | ⟨.outw port word, _⟩ =>
      if port = portData ∧ m.command = some cmdWriteSectors ∧ 0 < m.granted
      then some (m.move word) else none
  | ⟨.outb port value, _⟩ =>
      if m.granted = 0 then m.setRegister port value else none

end Protocol

open Protocol

variable {m : Protocol} {lba count : UInt32} {command : UInt8}
  {words : Nat → UInt16}

/-- The words `got` stored from index `i` on. -/
def fill (words : Nat → UInt16) (i : Nat) (got : List UInt16) : Nat → UInt16 :=
  fun j => if j < i then words j else got.getD (j - i) (words j)

/-- The state after startTransfer. -/
def Protocol.begun (m : Protocol) (lba count : UInt32) (command : UInt8) :
    Protocol :=
  { m with
    count := some count.toUInt8
    low := some (lba &&& 0xFF).toUInt8
    mid := some ((lba >>> 8) &&& 0xFF).toUInt8
    high := some ((lba >>> 16) &&& 0xFF).toUInt8
    command := some command }

end Ata

end VenomOS
