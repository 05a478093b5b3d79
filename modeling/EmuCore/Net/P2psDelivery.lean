import EmuCore.Net.P2psReceive

namespace EmuCore.Net.P2ps

open Segments List

def Packet.stop (p : Packet) : Nat := p.seq + p.data.length

def Packet.acks (p : Packet) : Prop := p.flags &&& Flags.ack ≠ 0

def Packet.greets (p : Packet) : Prop := p.flags = Flags.syn ||| Flags.ack

/-- The packets a side has sent so far: those with data are pieces of what was written, and two of
them are the same piece or lie apart. -/
structure Stream (base : Nat) (written : List Byte) (packets : List Packet) : Prop where
  starts : ∀ p ∈ packets, p.data ≠ [] -> base ≤ p.seq
  wrote : ∀ p ∈ packets, p.data ≠ [] -> p.data <+: written.drop (p.seq - base)
  apart : ∀ p ∈ packets, ∀ q ∈ packets, p.data ≠ [] -> q.data ≠ [] ->
    p = q ∨ p.stop ≤ q.seq ∨ q.stop ≤ p.seq
  greeting : ∀ p ∈ packets, p.greets -> p.seq + 1 = base

namespace Stream

variable {base : Nat} {written : List Byte} {packets : List Packet}

variable (stream : Stream base written packets)

include stream

lemma inside {p : Packet} (member : p ∈ packets)
    (filled : p.data ≠ []) : p.stop ≤ base + written.length := by
  have starts := stream.starts p member filled
  have short := (stream.wrote p member filled).length_le
  have positive := length_pos_iff.mpr filled
  rw [length_drop] at short
  unfold Packet.stop
  omega

lemma write (more : List Byte) :
    Stream base (written ++ more) packets where
  __ := stream
  wrote := fun p member filled => by
    rw [drop_append]
    exact (stream.wrote p member filled).trans (prefix_append _ _)

lemma send {more : List Packet}
    (old : ∀ p ∈ more, p ∈ packets ∨ p.data = [] ∧ ¬p.greets) :
    Stream base written (packets ++ more) := by
  have back : ∀ p ∈ packets ++ more, p.data ≠ [] ∨ p.greets -> p ∈ packets := fun p member heavy => by
    rcases mem_append.mp member with here | here
    · exact here
    · rcases old p here with here | ⟨empty, plain⟩
      · exact here
      · exact absurd heavy (by simp [empty, plain])
  exact {
    starts := fun p member filled => stream.starts p (back p member (.inl filled)) filled
    wrote := fun p member filled => stream.wrote p (back p member (.inl filled)) filled
    apart := fun p first q second filled filled' =>
      stream.apart p (back p first (.inl filled)) q (back q second (.inl filled')) filled filled'
    greeting := fun p member greets => stream.greeting p (back p member (.inr greets)) greets }

lemma chunk {p : Packet}
    (next : p.seq = base + written.length) (plain : ¬p.greets) :
    Stream base (written ++ p.data) (packets ++ [p]) := by
  have wider := stream.write p.data
  refine ⟨fun q member filled => ?_, fun q member filled => ?_, fun q first r second filled filled' => ?_,
    fun q member greets => ?_⟩
  · rcases mem_append.mp member with old | new
    · exact wider.starts q old filled
    · obtain rfl := mem_singleton.mp new
      omega
  · rcases mem_append.mp member with old | new
    · exact wider.wrote q old filled
    · obtain rfl := mem_singleton.mp new
      simp [next]
  · rcases mem_append.mp first with old | new <;> rcases mem_append.mp second with old' | new'
    · exact stream.apart q old r old' filled filled'
    · obtain rfl := mem_singleton.mp new'
      exact .inr (.inl (next ▸ stream.inside old filled))
    · obtain rfl := mem_singleton.mp new
      exact .inr (.inr (next ▸ stream.inside old' filled'))
    · exact .inl ((mem_singleton.mp new).trans (mem_singleton.mp new').symm)
  · rcases mem_append.mp member with old | new
    · exact stream.greeting q old greets
    · exact absurd greets (mem_singleton.mp new ▸ plain)

end Stream

def Parts (packets : List Packet) (received : Received) : Prop :=
  ∀ key data, received.find? key = some data ->
    ∃ p ∈ packets, p.seq ≤ key ∧ key + data.length = p.stop ∧ data = p.data.drop (key - p.seq)

variable {packets : List Packet} {received : Received}

lemma Parts.mono {more : List Packet} (parts : Parts packets received) (grow : packets ⊆ more) :
    Parts more received := by
  intro key data found
  obtain ⟨p, member, part⟩ := parts key data found
  exact ⟨p, grow member, part⟩

lemma Parts.insert (parts : Parts packets received) {p : Packet} (member : p ∈ packets) :
    Parts packets (received.insert p.seq p.data) := by
  intro key data found
  rw [SortedMap.find?_insert] at found
  split at found
  next same =>
    cases found
    exact ⟨p, member, same.ge, by rw [same, Packet.stop], by simp [same]⟩
  next => exact parts key data found

variable {data : List Byte}

lemma Parts.give {c next : Cursor} (parts : Parts packets c.receivedData) (gave : c.Gave next data) :
    Parts packets next.receivedData := by
  intro key other found
  rw [gave.kept] at found
  split at found
  next => cases found
  split at found
  next rest =>
    cases found
    obtain ⟨p, member, from_, stop, rfl⟩ := parts _ _ gave.found
    refine ⟨p, member, by omega, ?_, ?_⟩
    · rw [length_drop]
      omega
    · rw [drop_drop]
      congr 1
      omega
  next => exact parts key other found

lemma Parts.wrote {base : Nat} {written : List Byte} (parts : Parts packets received)
    (stream : Stream base written packets) {key : Nat} (found : received.find? key = some data)
    (filled : 0 < data.length) :
    base ≤ key ∧ data <+: written.drop (key - base) := by
  obtain ⟨p, member, from_, stop, rfl⟩ := parts key data found
  have nonempty : p.data ≠ [] := fun empty => by simp [empty] at filled
  have starts := stream.starts p member nonempty
  obtain ⟨tail, whole⟩ := stream.wrote p member nonempty
  have inside : key - p.seq ≤ p.data.length := by
    rw [Packet.stop] at stop
    omega
  refine ⟨by omega, tail, ?_⟩
  rw [show key - base = (p.seq - base) + (key - p.seq) by omega, ← drop_drop, ← whole,
    drop_append_of_le_length inside]

lemma Parts.ends (parts : Parts packets received) {key : Nat} (found : received.find? key = some data)
    (filled : 0 < data.length) :
    ∃ p ∈ packets, p.data ≠ [] ∧ key + data.length = p.stop := by
  obtain ⟨p, member, _, stop, rfl⟩ := parts key data found
  exact ⟨p, member, fun empty => by simp [empty] at filled, stop⟩

/-- How far the receiver is with a stream: it has returned the first bytes, the next `available`
ones are stored without a gap, they end where a packet ends, and no acknowledgement says more. -/
structure Delivery (base : Nat) (written : List Byte) (packets : List Packet) (available : Nat)
    (received : Received) (returned : List Byte) (replies : List Packet) : Prop where
  read : returned <+: written
  parts : Parts packets received
  sized : Sized received
  chain : Contiguous received.find? (base + returned.length) (base + returned.length + available)
  boundary : ∀ p ∈ packets, p.data ≠ [] ->
    base + returned.length + available ≤ p.seq ∨ p.stop ≤ base + returned.length + available
  acked : ∀ r ∈ replies, r.acks -> r.ack ≤ base + returned.length + available

namespace Delivery

variable {base available : Nat} {written returned : List Byte} {packets replies : List Packet}
  {received : Received}

variable (delivery : Delivery base written packets available received returned replies)

include delivery

lemma inside
    (stream : Stream base written packets) :
    base + returned.length + available ≤ base + written.length := by
  have read := delivery.read.length_le
  rcases delivery.chain.ends with here | ⟨key, data, found, stop⟩
  · omega
  · obtain ⟨p, member, filled, same⟩ := delivery.parts.ends found (delivery.sized _ _ found).1
    have := stream.inside member filled
    omega

lemma reply
    {more : List Packet}
    (bounded : ∀ r ∈ more, r.acks -> r.ack ≤ base + returned.length + available) :
    Delivery base written packets available received returned (replies ++ more) :=
  { delivery with
    acked := fun r member acks => (mem_append.mp member).elim
      (fun old => delivery.acked r old acks) (fun new => bounded r new acks) }

lemma write
    (more : List Byte) :
    Delivery base (written ++ more) packets available received returned replies :=
  { delivery with read := delivery.read.trans (prefix_append _ _) }

lemma send
    {more : List Packet} (bounded : ∀ p ∈ more, p.data ≠ [] ->
      base + returned.length + available ≤ p.seq ∨ p.stop ≤ base + returned.length + available) :
    Delivery base written (packets ++ more) available received returned replies :=
  { delivery with
    parts := delivery.parts.mono (subset_append_left _ _)
    boundary := fun p member filled => (mem_append.mp member).elim
      (fun old => delivery.boundary p old filled) (fun new => bounded p new filled) }

section

variable (stream : Stream base written packets)

include stream

lemma chunk {p : Packet} (next : p.seq = base + written.length) :
    Delivery base (written ++ p.data) (packets ++ [p]) available received returned replies := by
  refine (delivery.send fun q member _ => ?_).write p.data
  obtain rfl := mem_singleton.mp member
  exact .inl (next ▸ delivery.inside stream)

lemma acknowledge {received' : Received} {available' : Nat}
    (grown : ∀ key data, received.find? key = some data -> received'.find? key = some data)
    (parts : Parts packets received') (sized : Sized received')
    (chain : Contiguous received'.find? (base + returned.length)
      (base + returned.length + available'))
    (ends : received'.find? (base + returned.length + available') = none) :
    available ≤ available' ∧
      Delivery base written packets available' received' returned
        (replies ++ [ackPacket (base + returned.length + available')]) := by
  have further : Contiguous received'.find? (base + returned.length + available)
      (base + returned.length + available') :=
    (delivery.chain.mono fun key data _ => grown key data).until chain ends
  have forward := further.le
  refine ⟨by omega, delivery.read, parts, sized, chain, fun p member filled => ?_,
    fun r member acks => ?_⟩
  · rcases chain.ends with here | ⟨key, data, found, stop⟩
    · have unmoved : available' = available := by omega
      rw [unmoved]
      exact delivery.boundary p member filled
    obtain ⟨q, member', filled', same⟩ := parts.ends found (sized _ _ found).1
    rw [stop, same]
    rcases stream.apart p member q member' filled filled' with rfl | before | after
    · exact .inr le_rfl
    · exact .inr (before.trans (Nat.le_add_right _ _))
    · exact .inl after
  · rcases mem_append.mp member with old | new
    · exact (delivery.acked r old acks).trans forward
    · obtain rfl := mem_singleton.mp new
      exact le_rfl

lemma holds {p : Packet} (member : p ∈ packets)
    (bounded : p.data ≠ [] -> p.stop ≤ base + returned.length + available) {i : Nat} {byte : Byte}
    (at_ : p.data[i]? = some byte) :
    returned[p.seq + i - base]? = some byte ∨
      ∃ key data, received.find? key = some data ∧ key ≤ p.seq + i ∧
        data[p.seq + i - key]? = some byte := by
  have short : i < p.data.length := (List.getElem?_eq_some_iff.mp at_).1
  have filled : p.data ≠ [] := ne_nil_of_length_pos (by omega)
  have starts := stream.starts p member filled
  have below := bounded filled
  have value : written[p.seq + i - base]? = some byte := by
    obtain ⟨tail, whole⟩ := stream.wrote p member filled
    rw [show p.seq + i - base = (p.seq - base) + i by omega, ← getElem?_drop, ← whole,
      getElem?_append_left short, at_]
  unfold Packet.stop at below
  by_cases given : p.seq + i < base + returned.length
  · obtain ⟨tail, whole⟩ := delivery.read
    rw [← whole, getElem?_append_left (by omega)] at value
    exact .inl value
  obtain ⟨key, data, found, _, from_, before⟩ :=
    delivery.chain.covers (i := p.seq + i) (by omega) (by omega)
  obtain ⟨starts', tail, whole⟩ := delivery.parts.wrote stream found (delivery.sized _ _ found).1
  refine .inr ⟨key, data, found, from_, ?_⟩
  rw [show p.seq + i - base = (key - base) + (p.seq + i - key) by omega, ← getElem?_drop,
    ← whole, getElem?_append_left (by omega)] at value
  exact value

end

omit delivery

lemma append_read {returned data written : List Byte} (read : returned <+: written)
    (next : data <+: written.drop returned.length) : returned ++ data <+: written := by
  obtain ⟨rest, rfl⟩ := read
  rw [drop_left] at next
  exact prefix_append_right_inj returned |>.mpr next

structure Copied (packets : List Packet) (written returned : List Byte) (beg : Nat) (c : Cursor) :
    Prop where
  parts : Parts packets c.receivedData
  read : returned ++ c.destBuf <+: written
  begins : c.dataBegSeq = beg
  length : beg + c.destBuf.length = c.curPos

lemma Copied.give {c next : Cursor} {data : List Byte} {stop beg : Nat}
    (stream : Stream base written packets) (begins : beg = base + returned.length) (ok : c.Ok stop)
    (gave : c.Gave next data) (copied : Copied packets written returned beg c) :
    Copied packets written returned beg next where
  parts := copied.parts.give gave
  read := by
    have length := copied.length
    have here := (copied.parts.wrote stream gave.found (ok.sized _ _ gave.found).1).2
    rw [show c.curPos - base = (returned ++ c.destBuf).length by simp; omega] at here
    rw [gave.destBuf, ← append_assoc]
    exact append_read copied.read (( take_prefix _ _).trans here)
  begins := gave.dataBegSeq.trans copied.begins
  length := by
    have length := copied.length
    rw [gave.curPos ok.left, gave.destBuf, length_append, length_take]
    omega

lemma recvfrom {s : Socket} (acc : s.Accounted)
    (delivery : Delivery base written packets s.dataAvailable s.receivedData returned replies)
    (stream : Stream base written packets) (begins : s.dataBegSeq = base + returned.length)
    (some : s.dataAvailable ≠ 0) (len : BitVec 32) (dontWait : Bool) :
    ∃ next bytes, s.recvfrom len dontWait = .ok (next, .data bytes) ∧ next.Accounted ∧
      Delivery base written packets next.dataAvailable next.receivedData (returned ++ bytes)
        replies ∧
      next.dataBegSeq = base + (returned ++ bytes).length ∧
      (returned ++ bytes).length + next.dataAvailable = returned.length + s.dataAvailable ∧
      next.status = s.status ∧ next.curSeq = s.curSeq ∧ next.msgs = s.msgs := by
  obtain ⟨last, ran, copied, left, toGive, _, next⟩ := s.recvfrom_rule
    (P := Copied packets written returned s.dataBegSeq) acc len dontWait some
    (fun c next data ok _ gave copied => copied.give stream begins ok gave)
    ⟨delivery.parts, by simpa [Socket.cursor] using delivery.read, rfl,
      by simp [Cursor.curPos, Socket.cursor]⟩
  have available : last.toGive ≤ s.dataAvailable := toGive ▸ min_le_left _ _
  have given : last.destBuf.length = last.toGive := by
    have length := copied.length
    simp only [Cursor.curPos, left, copied.begins] at length
    omega
  have beg : (s.given last).dataBegSeq = base + (returned ++ last.destBuf).length := by
    rw [length_append, given]
    simp only [Socket.given]
    omega
  have same : (returned ++ last.destBuf).length + (s.given last).dataAvailable =
      returned.length + s.dataAvailable := by
    rw [length_append, given]
    simp only [Socket.given]
    omega
  have chain := next.chain
  rw [beg] at chain
  refine ⟨_, _, ran, next, ⟨copied.read, copied.parts, next.sized, chain, ?_, ?_⟩, beg, same, rfl, rfl,
    rfl⟩
  · rw [add_assoc, same, ← add_assoc]
    exact delivery.boundary
  · rw [add_assoc, same, ← add_assoc]
    exact delivery.acked

end Delivery

end EmuCore.Net.P2ps
