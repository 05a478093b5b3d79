import EmuCore.Lib.LittleEndian
import EmuCore.Net.P2psConnection

namespace EmuCore.Net.P2ps

open LittleEndian List BitVec Except

def u2sSig : BitVec 32 := 0x55325330

-- p2ps_encapsulated_tcp; the last byte only fills the structure up.
structure Header where
  signature : BitVec 32
  length : BitVec 32
  seq : BitVec 64
  ack : BitVec 64
  srcPort : BitVec 16
  dstPort : BitVec 16
  checksum : BitVec 16
  flags : BitVec 8
  padding : BitVec 8
deriving DecidableEq

def Header.parts (h : Header) : List (List UInt8) :=
  [encodeBig 4 h.signature.toNat, encodeBig 4 h.length.toNat, encodeBig 8 h.seq.toNat, encodeBig 8 h.ack.toNat,
    encodeBig 2 h.srcPort.toNat, encodeBig 2 h.dstPort.toNat, encodeBig 2 h.checksum.toNat,
    encodeBig 1 h.flags.toNat, encodeBig 1 h.padding.toNat]

def Header.bytes (h : Header) : List UInt8 := h.parts.flatten

def tcpHeaderSize : Nat := 32

def vportHeaderSize : Nat := 6

def readBig (w : Nat) (bytes : List UInt8) (offset width : Nat) : BitVec w :=
  BitVec.ofNat w (decodeBig (fieldAt bytes offset width))

def readHeader (bytes : List UInt8) : Header where
  signature := readBig 32 bytes 0 4
  length := readBig 32 bytes 4 4
  seq := readBig 64 bytes 8 8
  ack := readBig 64 bytes 16 8
  srcPort := readBig 16 bytes 24 2
  dstPort := readBig 16 bytes 26 2
  checksum := readBig 16 bytes 28 2
  flags := readBig 8 bytes 30 1
  padding := readBig 8 bytes 31 1

def checksumLoop (cksum : BitVec 32) : List UInt8 -> BitVec 32
  | [] => cksum
  | [last] => cksum + BitVec.ofNat 32 last.toNat
  | low :: high :: rest => checksumLoop (cksum + BitVec.ofNat 32 (low.toNat + 256 * high.toNat)) rest

def u2sTcpChecksum (buffer : List UInt8) : BitVec 16 :=
  let cksum := checksumLoop 0 buffer
  let cksum := (cksum >>> 16) + (cksum &&& 0xffff)
  let cksum := cksum + (cksum >>> 16)
  (~~~cksum).truncate 16

def flagP2p : Nat := 1

def flagP2ps : Nat := 2

def generateU2sPacket (header : Header) (data : List UInt8) : Option (List UInt8) :=
  if u32Size data < 65535 then
    some (encode 2 header.dstPort.toNat ++ encode 2 header.srcPort.toNat ++ encode 2 flagP2ps ++
      { header with checksum := u2sTcpChecksum ({ header with checksum := 0 }.bytes ++ data) }.bytes ++ data)
  else none
where
  u32Size (data : List UInt8) : Nat := (vportHeaderSize + tcpHeaderSize + data.length) % 2 ^ 32

inductive Verdict
  | noVport
  | vportZero
  | short
  | datagram
  | noTarget
  | noStream
  | badSignature
  | badLength
  | badPort
  | badChecksum
  | valid (header : Header) (data : List UInt8)
deriving DecidableEq

def clearChecksum (data : List UInt8) : List UInt8 := data.take 28 ++ [0, 0] ++ data.drop 30

def checkStream (dstVport : Nat) (data : List UInt8) : Verdict :=
  if data.length < tcpHeaderSize then .noStream
  else
    let header := readHeader data
    if header.signature ≠ u2sSig then .badSignature
    else if header.length.toNat ≠ data.length - tcpHeaderSize then .badLength
    else if header.dstPort.toNat ≠ dstVport then .badPort
    else if header.checksum ≠ u2sTcpChecksum (clearChecksum data) then .badChecksum
    else .valid (readHeader (clearChecksum data)) ((clearChecksum data).drop tcpHeaderSize)

-- What recv_data does with a packet before it looks for a socket; the buffer holds 65535 bytes.
def recvData (packet : List UInt8) : Verdict :=
  let received := packet.take 65535
  if received.length < 2 then .noVport
  else
    let dstVport := decode (fieldAt received 0 2)
    if dstVport = 0 then .vportZero
    else if received.length < vportHeaderSize then .short
    else
      let vportFlags := decode (fieldAt received 4 2)
      if vportFlags &&& flagP2p ≠ 0 then .datagram
      else if vportFlags &&& flagP2ps ≠ 0 then checkStream dstVport (received.drop vportHeaderSize)
      else .noTarget

section Header

variable (h : Header) (data : List UInt8)

@[simp] lemma length_header : h.bytes.length = tcpHeaderSize := by
  simp [Header.bytes, Header.parts, tcpHeaderSize]

lemma readBig_part (w : Nat) {value : BitVec w} (before after : List (List UInt8)) {offset width : Nat}
    (small : 2 ^ w = 256 ^ width) (place : offset = (before.map length).sum) :
    readBig w (before ++ encodeBig width value.toNat :: after).flatten offset width = value := by
  rw [readBig, fieldAt_part before _ after place (length_encodeBig _ _).symm,
    decodeBig_encodeBig (small ▸ value.isLt), ofNat_toNat, setWidth_eq]

lemma header_append : h.bytes ++ data = (h.parts ++ [data]).flatten := by
  simp [Header.bytes]

lemma readHeader_bytes : readHeader (h.bytes ++ data) = h := by
  rw [header_append, readHeader]
  obtain ⟨signature, length, seq, ack, srcPort, dstPort, checksum, flags, padding⟩ := h
  rw [Header.mk.injEq]
  refine ⟨?_, ?_, ?_, ?_, ?_, ?_, ?_, ?_, ?_⟩
  · exact readBig_part 32 [] _ rfl rfl
  · exact readBig_part 32 [_] _ rfl (by simp)
  · exact readBig_part 64 [_, _] _ rfl (by simp)
  · exact readBig_part 64 [_, _, _] _ rfl (by simp)
  · exact readBig_part 16 [_, _, _, _] _ rfl (by simp)
  · exact readBig_part 16 [_, _, _, _, _] _ rfl (by simp)
  · exact readBig_part 16 [_, _, _, _, _, _] _ rfl (by simp)
  · exact readBig_part 8 [_, _, _, _, _, _, _] _ rfl (by simp)
  · exact readBig_part 8 [_, _, _, _, _, _, _, _] _ rfl (by simp)

lemma clearChecksum_bytes : clearChecksum (h.bytes ++ data) = { h with checksum := 0 }.bytes ++ data := by
  have front : h.bytes ++ data = (h.parts.take 6).flatten ++
      (encodeBig 2 h.checksum.toNat ++ ((h.parts.drop 7).flatten ++ data)) := by
    simp [Header.bytes, Header.parts]
  have size : (h.parts.take 6).flatten.length = 28 := by
    simp [Header.parts]
  have rest : (h.bytes ++ data).drop 30 = (h.parts.drop 7).flatten ++ data := by
    rw [front, ← List.append_assoc]
    exact drop_left' (by rw [length_append, size, length_encodeBig])
  rw [clearChecksum, rest, front, take_left' size]
  simp [Header.bytes, Header.parts, encodeBig, encode]

lemma checkStream_bytes {dstVport : Nat} (signed : h.signature = u2sSig) (length : h.length.toNat = data.length)
    (port : h.dstPort.toNat = dstVport) (sum : h.checksum = u2sTcpChecksum ({ h with checksum := 0 }.bytes ++ data)) :
    checkStream dstVport (h.bytes ++ data) = .valid { h with checksum := 0 } data := by
  have size : (h.bytes ++ data).length = tcpHeaderSize + data.length := by simp
  rw [checkStream, if_neg (by omega)]
  rw [readHeader_bytes, clearChecksum_bytes, readHeader_bytes, if_neg (not_not.mpr signed),
    if_neg (by omega), if_neg (not_not.mpr port), if_neg (not_not.mpr sum), drop_left' (length_header _)]

end Header

section Packets

variable {header : Header} {data bytes : List UInt8}

lemma recvData_vport (dst src flags : Nat) (rest : List UInt8) (dstFits : dst < 256 ^ 2) (flagsFit : flags < 256 ^ 2)
    (size : rest.length < 65535 - vportHeaderSize) :
    recvData (encode 2 dst ++ encode 2 src ++ encode 2 flags ++ rest) =
      if dst = 0 then .vportZero
      else if flags &&& flagP2p ≠ 0 then .datagram
      else if flags &&& flagP2ps ≠ 0 then checkStream dst rest
      else .noTarget := by
  have vport : (encode 2 dst ++ encode 2 src ++ encode 2 flags).length = vportHeaderSize := by
    simp [vportHeaderSize]
  have whole : (encode 2 dst ++ encode 2 src ++ encode 2 flags ++ rest).take 65535 =
      encode 2 dst ++ encode 2 src ++ encode 2 flags ++ rest := by
    refine take_of_length_le ?_
    rw [length_append, vport]
    unfold vportHeaderSize at *
    omega
  have parts : encode 2 dst ++ encode 2 src ++ encode 2 flags ++ rest =
      [encode 2 dst, encode 2 src, encode 2 flags, rest].flatten := by simp
  have first : fieldAt (encode 2 dst ++ encode 2 src ++ encode 2 flags ++ rest) 0 2 = encode 2 dst := by
    rw [parts]
    exact fieldAt_part [] _ _ rfl (by simp)
  have third : fieldAt (encode 2 dst ++ encode 2 src ++ encode 2 flags ++ rest) 4 2 = encode 2 flags := by
    rw [parts]
    exact fieldAt_part [_, _] _ _ (by simp) (by simp)
  have long : vportHeaderSize ≤ (encode 2 dst ++ encode 2 src ++ encode 2 flags ++ rest).length := by
    rw [length_append, vport]
    exact Nat.le_add_right _ _
  rw [recvData]
  dsimp only
  rw [whole, first, third, decode_encode_of_lt dstFits, decode_encode_of_lt flagsFit, drop_left' vport,
    if_neg (by unfold vportHeaderSize at long; omega), if_neg (not_lt.mpr long)]

lemma generate_iff : generateU2sPacket header data = none ↔
    65535 ≤ (vportHeaderSize + tcpHeaderSize + data.length) % 2 ^ 32 := by
  rw [generateU2sPacket, generateU2sPacket.u32Size]
  split
  next small => simpa using small
  next large => simpa using large

/-- A packet that is generated for a header with the signature and the length of its data passes every check,
unless it is for virtual port 0. -/
lemma recvData_generate (signed : header.signature = u2sSig) (length : header.length.toNat = data.length)
    (clear : header.checksum = 0) (made : generateU2sPacket header data = some bytes)
    (short : data.length < 65535 - vportHeaderSize - tcpHeaderSize) :
    recvData bytes = if header.dstPort = 0 then .vportZero else .valid header data := by
  rw [generateU2sPacket] at made
  split at made
  next =>
    cases made
    have own : { header with checksum := 0 } = header := by rw [← clear]
    have port : header.dstPort.toNat < 256 ^ 2 := header.dstPort.isLt
    have stream := checkStream_bytes
      { header with checksum := u2sTcpChecksum ({ header with checksum := 0 }.bytes ++ data) } data signed length
      rfl (by dsimp only)
    rw [append_assoc _ _ data, recvData_vport _ _ _ _ port (by decide)
      (by rw [length_append, length_header]; omega)]
    refine if_congr ?_ rfl ?_
    · rw [← toNat_inj]
      rfl
    · rw [if_neg (by decide), if_pos (by decide), stream]
      exact congrArg (Verdict.valid · data) own
  next => cases made

end Packets

lemma small_take {buf : List Byte} (inside : headerSize + (buf.take maxDataLen).length < 65535) :
    (buf.take maxDataLen).length < 2 ^ 32 := by
  omega

def cutLoop : Nat -> Nat -> List Byte -> Except Fault (List Packet × Nat)
  | 0, seq, _ => .ok ([], seq)
  | fuel + 1, seq, buf =>
    if buf = [] then .ok ([], seq)
    else if inside : headerSize + (buf.take maxDataLen).length < 65535 then
      (cutLoop fuel (seq + (buf.take maxDataLen).length) (buf.drop maxDataLen)).map fun later =>
        (⟨seq, 0, 0, buf.take maxDataLen, small_take inside⟩ :: later.1, later.2)
    else .error .ensure

def Socket.cut (s : Socket) (buf : List Byte) : Except Fault (List Packet × Nat) :=
  cutLoop buf.length s.curSeq buf

lemma sendChunk_cut (s : Socket) (packet : Packet) (native : Bool) : ∃ next sent,
    s.sendChunk packet native = (next, sent) ∧ next.curSeq = s.curSeq + packet.data.length ∧
      sent.Sublist [packet] := by
  cases native with
  | false => exact ⟨_, _, rfl, rfl, nil_sublist _⟩
  | true => exact ⟨_, _, rfl, rfl, List.Sublist.refl _⟩

lemma map_eq_error {A B : Type} {f : A -> B} {result : Except Fault A} {fault : Fault}
    (ran : result.map f = .error fault) : result = .error fault := by
  cases result with
  | error other => exact congrArg error (error.inj ran)
  | ok a => cases ran

lemma sendLoop_cut (fuel : Nat) (s : Socket) (buf : List Byte) (natives : List Bool) :
    (∀ fault, cutLoop fuel s.curSeq buf = .error fault -> s.sendLoop fuel buf natives = .error fault) ∧
      ∀ packets last, cutLoop fuel s.curSeq buf = .ok (packets, last) -> ∃ next sent,
        s.sendLoop fuel buf natives = .ok (next, sent) ∧ next.curSeq = last ∧ sent.Sublist packets := by
  induction fuel generalizing s buf natives with
  | zero =>
    refine ⟨fun fault ran => (by cases ran), fun packets last ran => ?_⟩
    obtain ⟨rfl, rfl⟩ := Prod.mk.inj (ok.inj ran)
    exact ⟨s, [], rfl, rfl, .slnil⟩
  | succ fuel ih =>
    rw [cutLoop, Socket.sendLoop]
    split
    next =>
      refine ⟨fun fault ran => (by cases ran), fun packets last ran => ?_⟩
      obtain ⟨rfl, rfl⟩ := Prod.mk.inj (ok.inj ran)
      exact ⟨s, [], rfl, rfl, .slnil⟩
    split
    next inside =>
      obtain ⟨next, sent, chunk, seq, part⟩ := sendChunk_cut s
        ⟨s.curSeq, 0, 0, buf.take maxDataLen, by omega⟩ (natives.headD true)
      obtain ⟨failed, ran⟩ := ih next (buf.drop maxDataLen) natives.tail
      rw [seq] at failed ran
      rw [chunk]
      dsimp only at failed ran ⊢
      refine ⟨fun fault error => ?_, fun packets last done => ?_⟩
      · rw [failed fault (map_eq_error error)]
        rfl
      obtain ⟨⟨later, end_⟩, rest, whole⟩ := Socket.map_eq_ok done
      obtain ⟨rfl, rfl⟩ := Prod.mk.inj whole
      obtain ⟨final, others, run, reached, few⟩ := ran later end_ rest
      exact ⟨final, sent ++ others, by rw [run]; rfl, reached, part.append few⟩
    next =>
      exact ⟨fun fault ran => congrArg error (error.inj ran), fun packets last ran => by cases ran⟩

def payload (p : Packet) : List UInt8 := p.data.map UInt8.ofBitVec

def headerOf (vport opVport : BitVec 16) (padding : BitVec 8) (p : Packet) : Header where
  signature := u2sSig
  length := BitVec.ofNat 32 p.data.length
  seq := BitVec.ofNat 64 p.seq
  ack := BitVec.ofNat 64 p.ack
  srcPort := vport
  dstPort := opVport
  checksum := 0
  flags := p.flags
  padding := padding

section HeaderOf

variable (vport opVport : BitVec 16) (padding : BitVec 8) (p : Packet)

lemma generate_packet (small : p.data.length < maxDataLen) :
    ∃ bytes, generateU2sPacket (headerOf vport opVport padding p) (payload p) = some bytes := by
  have size : (payload p).length = p.data.length := length_map _
  refine Option.ne_none_iff_exists'.mp fun none => ?_
  rw [generate_iff, size] at none
  unfold vportHeaderSize tcpHeaderSize at none
  unfold maxDataLen headerSize at small
  omega

lemma recvData_packet (small : p.data.length < maxDataLen) {bytes : List UInt8}
    (made : generateU2sPacket (headerOf vport opVport padding p) (payload p) = some bytes) :
    recvData bytes = if opVport = 0 then .vportZero else .valid (headerOf vport opVport padding p) (payload p) := by
  have size : (payload p).length = p.data.length := length_map _
  refine recvData_generate rfl ?_ rfl made ?_
  · rw [headerOf, toNat_ofNat, size]
    exact Nat.mod_eq_of_lt p.small
  · rw [size]
    exact small

end HeaderOf

structure Transmitted (vport opVport : BitVec 16) (padding : BitVec 8) (seq : Nat) (buf : List Byte)
    (packets : List Packet) (last : Nat) : Prop where
  payloads : (packets.map (·.data)).flatten = buf
  consecutive : ∀ i p, packets[i]? = some p -> p.seq = seq + ((packets.take i).map (·.data)).flatten.length
  advanced : last = seq + buf.length
  accepted : ∀ p ∈ packets, ∃ bytes, generateU2sPacket (headerOf vport opVport padding p) (payload p) = some bytes ∧
    recvData bytes = .valid (headerOf vport opVport padding p) (payload p)

section Cut

variable {s : Socket} {buf : List Byte}

lemma cut_large (large : maxDataLen ≤ buf.length) : s.cut buf = .error .ensure := by
  obtain ⟨n, size⟩ : ∃ n, buf.length = n + 1 := ⟨buf.length - 1, by unfold maxDataLen headerSize at large; omega⟩
  have filled : buf ≠ [] := by
    rintro rfl
    cases size
  have chunk : (buf.take maxDataLen).length = maxDataLen := by rw [length_take, min_eq_left large]
  rw [Socket.cut, size, cutLoop, if_neg filled, dif_neg (by rw [chunk]; decide)]

lemma cut_empty : s.cut [] = .ok ([], s.curSeq) := rfl

lemma cutLoop_nil (fuel seq : Nat) : cutLoop fuel seq [] = .ok ([], seq) := by
  cases fuel <;> rfl

lemma cut_small (filled : buf ≠ []) (small : buf.length < maxDataLen) (fits : buf.length < 2 ^ 32) :
    s.cut buf = .ok ([⟨s.curSeq, 0, 0, buf, fits⟩], s.curSeq + buf.length) := by
  have whole : buf.take maxDataLen = buf := take_of_length_le small.le
  have none : buf.drop maxDataLen = [] := drop_eq_nil_of_le small.le
  have inside : headerSize + (buf.take maxDataLen).length < 65535 := by
    rw [whole]
    unfold maxDataLen headerSize at *
    omega
  cases buf with
  | nil => exact absurd rfl filled
  | cons byte rest =>
    rw [Socket.cut, length_cons, cutLoop, if_neg filled, dif_pos inside]
    simp only [whole, none, cutLoop_nil, Except.map, length_cons]

end Cut

theorem sendto_wire_iff (s : Socket) (isOpen : s.isOpen) (vport opVport : BitVec 16) (padding : BitVec 8)
    (buf : List Byte) :
    ((∃ packets last, s.cut buf = .ok (packets, last) ∧
        Transmitted vport opVport padding s.curSeq buf packets last ∧
        ∀ natives, ∃ next sent, s.sendto buf natives = .ok (next, sent) ∧ next.curSeq = last ∧
          sent.Sublist packets) ↔
      buf.length < maxDataLen ∧ (buf = [] ∨ opVport ≠ 0)) ∧
    (maxDataLen ≤ buf.length -> s.cut buf = .error .ensure ∧ ∀ natives, s.sendto buf natives = .error .ensure) := by
  have sends : ∀ natives, s.sendto buf natives = s.sendLoop buf.length buf natives :=
    Socket.sendto_open isOpen buf
  have loop := sendLoop_cut buf.length s buf
  refine ⟨⟨?_, ?_⟩, fun large => ⟨cut_large large, fun natives => ?_⟩⟩
  · rintro ⟨packets, last, made, sent, _⟩
    have small : buf.length < maxDataLen := by
      by_contra large
      rw [cut_large (not_lt.mp large)] at made
      cases made
    refine ⟨small, or_iff_not_imp_left.mpr fun filled zero => ?_⟩
    have fits : buf.length < 2 ^ 32 := by unfold maxDataLen headerSize at small; omega
    rw [cut_small filled small fits] at made
    obtain ⟨rfl, _⟩ := Prod.mk.inj (ok.inj made)
    obtain ⟨bytes, generated, valid⟩ := sent.accepted _ mem_cons_self
    rw [recvData_packet vport opVport padding _ small generated, if_pos zero] at valid
    cases valid
  · rintro ⟨small, port⟩
    have fits : buf.length < 2 ^ 32 := by unfold maxDataLen headerSize at small; omega
    obtain ⟨packets, last, made, sent⟩ : ∃ packets last, s.cut buf = .ok (packets, last) ∧
        Transmitted vport opVport padding s.curSeq buf packets last := by
      by_cases filled : buf = []
      · subst filled
        exact ⟨[], s.curSeq, cut_empty, rfl, fun i p found => (by cases found), rfl, fun p member => by cases member⟩
      refine ⟨_, _, cut_small filled small fits, by simp, ?_, rfl, ?_⟩
      · intro i p found
        obtain ⟨rfl, rfl⟩ : i = 0 ∧ ⟨s.curSeq, 0, 0, buf, fits⟩ = p := by
          cases i with
          | zero => exact ⟨rfl, Option.some.inj found⟩
          | succ i => cases found
        rfl
      · intro p member
        obtain rfl : p = ⟨s.curSeq, 0, 0, buf, fits⟩ := mem_singleton.mp member
        obtain ⟨bytes, generated⟩ := generate_packet vport opVport padding ⟨s.curSeq, 0, 0, buf, fits⟩ small
        refine ⟨bytes, generated, ?_⟩
        rw [recvData_packet vport opVport padding _ small generated, if_neg (port.resolve_left filled)]
    refine ⟨packets, last, made, sent, fun natives => ?_⟩
    rw [sends]
    exact (loop natives).2 packets last made
  · rw [sends]
    exact (loop natives).1 _ (cut_large large)

def peer : Socket := ⟨.connected, 0x100000, 7, 0, 0, ∅, 0, []⟩

theorem sendto_wire_byte : peer.isOpen ∧ ∃ packets last, peer.cut [0x41] = .ok (packets, last) ∧
    Transmitted 30000 30001 0 7 [0x41] packets last := by
  have isOpen : peer.isOpen := ⟨by decide, by decide⟩
  obtain ⟨packets, last, made, sent, _⟩ :=
    (sendto_wire_iff peer isOpen 30000 30001 0 [0x41]).1.mpr ⟨by decide, .inr (by decide)⟩
  exact ⟨isOpen, packets, last, made, sent⟩

-- A buffer as long as the limit of the sender, and a packet for virtual port 0.
theorem sendto_refused : (∀ natives, peer.sendto (replicate 65497 0x41) natives = .error .ensure) ∧
    ∃ packet bytes, peer.cut [0x41] = .ok ([packet], 8) ∧
      generateU2sPacket (headerOf 30000 0 0 packet) (payload packet) = some bytes ∧ recvData bytes = .vportZero := by
  constructor
  · intro natives
    refine (Socket.sendto_ensure_iff ⟨by decide, by decide⟩ _ natives).mpr ?_
    rw [length_replicate]
    decide
  · obtain ⟨bytes, generated⟩ := generate_packet 30000 0 0 ⟨7, 0, 0, [0x41], by decide⟩ (by decide)
    refine ⟨_, bytes, cut_small (by decide) (by decide) (by decide), generated, ?_⟩
    rw [recvData_packet 30000 0 0 _ (by decide) generated, if_pos rfl]

end EmuCore.Net.P2ps
