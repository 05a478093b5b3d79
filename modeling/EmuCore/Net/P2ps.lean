import EmuCore.Lib.SortedMap
import EmuCore.Lib.Transition

namespace EmuCore.Net.P2ps

abbrev Byte := BitVec 8

abbrev Flags := BitVec 8

namespace Flags

def fin : Flags := 1
def syn : Flags := 2
def rst : Flags := 4
def psh : Flags := 8
def ack : Flags := 16

end Flags

inductive Status
  | closed
  | listening
  | handshaking
  | connected
  | disconnected
deriving DecidableEq, Repr

/-- A STREAM-P2P packet. Its length field is a u32; packets in which it is not the size of the data
are dropped before they reach a socket. -/
structure Packet where
  seq : Nat
  ack : Nat
  flags : Flags
  data : List Byte
  small : data.length < 2 ^ 32
deriving DecidableEq

structure Socket where
  status : Status
  soRcvbuf : Nat
  curSeq : Nat
  dataBegSeq : Nat
  dataAvailable : Nat
  receivedData : SortedMap Nat (List Byte)
  receivedDataSize : Nat
  msgs : List Packet
deriving DecidableEq

def segmentOverhead : Nat := 4

def segmentCost (payloadSize : Nat) : Nat := segmentOverhead + payloadSize

def Socket.sendU2sPacket (s : Socket) (packet : Packet) (native : Bool) : Socket × List Packet :=
  if native then ({ s with msgs := s.msgs ++ [packet] }, [packet]) else (s, [])

def Socket.confirmDataReceived (s : Socket) (ack : Nat) : Socket :=
  { s with msgs := s.msgs.filter fun msg => ¬msg.seq < ack }

def Socket.closeStream (s : Socket) : Socket := { s with status := .disconnected, msgs := [] }

def finalAck (receivedData : SortedMap Nat (List Byte)) : Nat -> Nat -> Nat
  | 0, pos => pos
  | fuel + 1, pos =>
    match receivedData.find? pos with
    | none => pos
    | some data => finalAck receivedData fuel (pos + data.length)

def ackPacket (ack : Nat) : Packet := ⟨0, ack, Flags.ack, [], by decide⟩

variable (s : Socket)

def Socket.sendAck : Socket × List Packet :=
  let ack := finalAck s.receivedData s.receivedData.entries.length s.dataBegSeq
  ({ s with dataAvailable := ack - s.dataBegSeq }, [ackPacket ack])

def Socket.fitsWindow (packet : Packet) : Prop :=
  packet.seq - s.dataBegSeq ≤ s.soRcvbuf ∧
    packet.data.length ≤ s.soRcvbuf - (packet.seq - s.dataBegSeq)

def Socket.fitsQueue (packet : Packet) : Prop :=
  s.receivedDataSize < s.soRcvbuf ∧
    segmentCost packet.data.length ≤ s.soRcvbuf - s.receivedDataSize

def Socket.forceAccept (packet : Packet) : Prop :=
  packet.seq = s.dataBegSeq + s.dataAvailable ∧ (s.fitsWindow packet ∨ s.dataAvailable = 0)

instance (s : Socket) (packet : Packet) : Decidable (s.fitsWindow packet) :=
  inferInstanceAs (Decidable (_ ∧ _))

instance (s : Socket) (packet : Packet) : Decidable (s.fitsQueue packet) :=
  inferInstanceAs (Decidable (_ ∧ _))

instance (s : Socket) (packet : Packet) : Decidable (s.forceAccept packet) :=
  inferInstanceAs (Decidable (_ ∧ _))

variable (s : Socket) (packet : Packet)

def Socket.store : Socket :=
  { s with
    receivedData := s.receivedData.insert packet.seq packet.data
    receivedDataSize := s.receivedDataSize + segmentCost packet.data.length }

def Socket.receive : Socket :=
  if s.receivedData.find? packet.seq = none ∧ packet.data.length ≠ 0 then
    if ¬s.forceAccept packet ∧ (¬s.fitsWindow packet ∨ ¬s.fitsQueue packet) then s
    else s.store packet
  else s

def Socket.handleData : Socket × List Packet :=
  if packet.seq < s.dataBegSeq then
    if packet.flags ≠ Flags.ack then s.sendAck else (s, [])
  else (s.receive packet).sendAck

def Socket.confirm : Socket :=
  if packet.flags &&& Flags.ack ≠ 0 then s.confirmDataReceived packet.ack else s

def Socket.handleConnected : Socket × List Packet :=
  match s.status with
  | .handshaking =>
    if packet.flags = Flags.syn ||| Flags.ack then
      { s.confirm packet with dataBegSeq := packet.seq + 1, status := .connected }.sendAck
    else (s.confirm packet, [])
  | .connected =>
    if packet.flags ∈ [0, Flags.psh, Flags.ack, Flags.syn, Flags.syn ||| Flags.ack] then
      (s.confirm packet).handleData packet
    else if packet.flags = Flags.rst ∨ packet.flags = Flags.fin then
      ((s.confirm packet).closeStream, [])
    else (s.confirm packet, [])
  | _ => (s, [])

def Socket.connect (s : Socket) (seq : Nat) (native : Bool) : Socket × List Packet :=
  if s.status ≠ .closed ∧ s.status ≠ .disconnected then (s, [])
  else
    { s with
      curSeq := seq + 1
      dataBegSeq := 0
      dataAvailable := 0
      receivedData := ∅
      receivedDataSize := 0
      status := .handshaking }.sendU2sPacket ⟨seq, 0, Flags.syn, [], by decide⟩ native

-- Where the code would read the first entry of an empty map, subtract below zero, fail an ensure, or
-- loop forever.
inductive Fault
  | emptyMap
  | underflow
  | ensure
  | endless
deriving DecidableEq, Repr

def sub (a b : Nat) : Except Fault Nat := if b ≤ a then .ok (a - b) else .error .underflow

structure Cursor where
  dataBegSeq : Nat
  toGive : Nat
  leftToGive : Nat
  destBuf : List Byte
  receivedData : SortedMap Nat (List Byte)
  receivedDataSize : Nat

variable (c : Cursor)

def Cursor.curPos : Nat := c.dataBegSeq + (c.toGive - c.leftToGive)

def Cursor.eraseStale : Except Fault Cursor := do
  let size ← (c.receivedData.below c.curPos).foldlM
    (fun size entry => sub size (segmentCost entry.2.length)) c.receivedDataSize
  pure { c with receivedData := c.receivedData.dropBelow c.curPos, receivedDataSize := size }

-- A rest that is not given keeps its place under a new key.
def Cursor.split (newKey : Nat) (rest : List Byte) : Except Fault Cursor := do
  let size ← match c.receivedData.find? newKey with
    | none => pure c.receivedDataSize
    | some old => sub c.receivedDataSize (segmentCost old.length)
  pure { c with receivedData := c.receivedData.insert newKey rest, receivedDataSize := size }

def Cursor.consume : Except Fault Cursor := do
  pure { c with receivedDataSize := ← sub c.receivedDataSize segmentOverhead }

def Cursor.give (key : Nat) (curData : List Byte) : Except Fault Cursor := do
  let toGiveForThisPacket := min (curData.length % 2 ^ 32) c.leftToGive
  let after ←
    if curData.length ≠ toGiveForThisPacket then
      c.split (key + toGiveForThisPacket) (curData.drop toGiveForThisPacket)
    else c.consume
  pure { after with
    destBuf := c.destBuf ++ curData.take toGiveForThisPacket
    receivedData := after.receivedData.eraseFirst
    leftToGive := c.leftToGive - toGiveForThisPacket }

def Cursor.step : Except Fault Cursor := do
  let c ← c.eraseStale
  match c.receivedData.first? with
  | none => .error .emptyMap
  | some (key, curData) => c.give key curData

def Cursor.run : Nat -> Cursor -> Except Fault Cursor
  | 0, c => .ok c
  | rounds + 1, c => if c.leftToGive = 0 then .ok c else c.step.bind (Cursor.run rounds)

inductive Reply
  | disconnected
  | notConnected
  | wouldBlock
  | blocks
  | data (bytes : List Byte)
deriving DecidableEq

variable (s : Socket)

def Socket.nothing (dontWait : Bool) : Reply :=
  match s.status with
  | .disconnected => .disconnected
  | .closed => .notConnected
  | _ => if dontWait then .wouldBlock else .blocks

def Socket.toGive (len : BitVec 32) : Nat := min s.dataAvailable len.toNat

def Socket.cursor (len : BitVec 32) : Cursor where
  dataBegSeq := s.dataBegSeq
  toGive := s.toGive len
  leftToGive := s.toGive len
  destBuf := []
  receivedData := s.receivedData
  receivedDataSize := s.receivedDataSize

def Socket.recvfrom (len : BitVec 32) (dontWait : Bool) :
    Except Fault (Socket × Reply) := do
  if s.dataAvailable = 0 then pure (s, s.nothing dontWait)
  else
    let c ← (s.cursor len).run (s.toGive len)
    if c.leftToGive ≠ 0 then .error .endless
    else
      let available ← sub s.dataAvailable c.toGive
      let size ← sub c.receivedDataSize c.toGive
      pure ({ s with
        dataAvailable := available
        dataBegSeq := s.dataBegSeq + c.toGive
        receivedData := c.receivedData
        receivedDataSize := size }, .data c.destBuf)

def headerSize : Nat := 38

def maxDataLen : Nat := 65535 - headerSize

def Socket.sendChunk (s : Socket) (packet : Packet) (native : Bool) : Socket × List Packet :=
  let (next, sent) := s.sendU2sPacket packet native
  ({ next with curSeq := s.curSeq + packet.data.length }, sent)

-- `while (cur_total_len > 0)`; `buf` is the part that is left.
def Socket.sendLoop : Nat -> Socket -> List Byte -> List Bool -> Except Fault (Socket × List Packet)
  | 0, s, _, _ => .ok (s, [])
  | fuel + 1, s, buf, natives =>
    if buf = [] then .ok (s, [])
    else if inside : headerSize + (buf.take maxDataLen).length < 65535 then
      let (next, sent) := s.sendChunk ⟨s.curSeq, 0, 0, buf.take maxDataLen, by omega⟩
        (natives.headD true)
      (sendLoop fuel next (buf.drop maxDataLen) natives.tail).map fun (last, later) =>
        (last, sent ++ later)
    else .error .ensure

def Socket.sendto (s : Socket) (buf : List Byte) (natives : List Bool) :
    Except Fault (Socket × List Packet) :=
  match s.status with
  | .disconnected | .closed => .ok (s, [])
  | _ => s.sendLoop buf.length buf natives

end EmuCore.Net.P2ps
