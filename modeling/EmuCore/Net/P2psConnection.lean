import EmuCore.Net.P2psReliable

namespace EmuCore.Net.P2ps

open List

namespace Socket

lemma sendto_open {s : Socket} (isOpen : s.isOpen) (buf : List Byte) (natives : List Bool) :
    s.sendto buf natives = s.sendLoop buf.length buf natives := by
  obtain ⟨alive, opened⟩ := isOpen
  unfold sendto
  split
  next dead => exact absurd dead alive
  next closed => exact absurd closed opened
  next => rfl

end Socket

namespace Pair

variable {base : Side -> Nat} {s : Pair} {x : Side}

structure Sending (base : Side -> Nat) (s : Pair) (x : Side) (t : Socket) (written : List Byte)
    (sent : List Packet) : Prop where
  idle : (s.sock x).Idle { t with curSeq := (s.sock x).curSeq, msgs := [] }
  curSeq : t.curSeq = base x + (s.written x ++ written).length
  stream : Stream (base x) (s.written x ++ written) (s.sent x ++ sent)
  sender : Delivery (base x) (s.written x ++ written) (s.sent x ++ sent)
    (s.sock x.other).dataAvailable (s.sock x.other).receivedData (s.returned x.other)
    (s.sent x.other)
  msgs : ∀ p ∈ t.msgs, p ∈ s.sent x ++ sent
  plain : ∀ p ∈ sent, p.flags = 0

lemma Sending.chunk {t : Socket} {written : List Byte} {sent : List Packet} {packet : Packet}
    (sending : Sending base s x t written sent) (native : Bool) (next : packet.seq = t.curSeq)
    (plain : packet.flags = 0) :
    Sending base s x (t.sendChunk packet native).1 (written ++ packet.data)
      (sent ++ (t.sendChunk packet native).2) := by
  have curSeq : (t.sendChunk packet native).1.curSeq =
      base x + (s.written x ++ (written ++ packet.data)).length := by
    have before := sending.curSeq
    simp only [Socket.sendChunk, length_append] at before ⊢
    omega
  have here : packet.seq = base x + (s.written x ++ written).length := next.trans sending.curSeq
  have silent : ¬packet.greets := by
    rw [Packet.greets, plain]
    decide
  cases native with
  | false =>
    refine ⟨sending.idle, curSeq, ?_, ?_, ?_, ?_⟩
    · simpa [Socket.sendChunk, Socket.sendU2sPacket] using sending.stream.write packet.data
    · simpa [Socket.sendChunk, Socket.sendU2sPacket] using sending.sender.write packet.data
    · simpa [Socket.sendChunk, Socket.sendU2sPacket] using sending.msgs
    · simpa [Socket.sendChunk, Socket.sendU2sPacket] using sending.plain
  | true =>
    have stream := sending.stream.chunk here silent
    have sender := sending.sender.chunk sending.stream here
    refine ⟨sending.idle, curSeq, ?_, ?_, ?_, ?_⟩
    · simpa [Socket.sendChunk, Socket.sendU2sPacket] using stream
    · simpa [Socket.sendChunk, Socket.sendU2sPacket] using sender
    · intro p member
      rcases mem_append.mp member with old | new
      · have known := sending.msgs p old
        simp only [Socket.sendChunk, Socket.sendU2sPacket, if_true, ← append_assoc]
        exact mem_append_left _ known
      · simp only [Socket.sendChunk, Socket.sendU2sPacket, if_true, ← append_assoc]
        exact mem_append_right _ new
    · intro p member
      rcases mem_append.mp member with old | new
      · exact sending.plain p old
      · exact mem_singleton.mp new ▸ plain

lemma sendto_inv (inv : s.Inv base) {buf : List Byte} {natives : List Bool} {next : Socket}
    {sent : List Packet} (ran : (s.sock x).sendto buf natives = .ok (next, sent)) :
    (s.apply x ⟨next, sent, buf, [], []⟩).Inv base := by
  have receiver := inv.delivery x.other
  rw [Side.other_other] at receiver
  apply apply_inv inv
  by_cases isOpen : (s.sock x).isOpen
  · rw [Socket.sendto_open isOpen] at ran
    have start : Sending base s x (s.sock x) [] [] ∧ (s.sock x).Accounted :=
      ⟨⟨⟨.inl rfl, rfl, nil_subset _, rfl, rfl, rfl, rfl⟩, by simpa using inv.curSeq x isOpen,
        by simpa using inv.stream x, by simpa using inv.delivery x, by simpa using inv.msgs x,
        fun p member => by cases member⟩, inv.acc x⟩
    obtain ⟨sending, acc⟩ := Socket.sendLoop_rule
      (P := fun t written sent => Sending base s x t written sent ∧ t.Accounted)
      (fun t written sent packet native ⟨sending, acc⟩ next plain _ =>
        ⟨sending.chunk native next plain, Socket.sendChunk_accounted acc packet native⟩)
      [] [] start le_rfl ran
    rw [nil_append, nil_append] at sending
    have idle := sending.idle
    have follows := idle.follows (inv.follows x)
    constructor
    case acc => exact acc
    case stream => exact sending.stream
    case curSeq => exact fun _ => sending.curSeq
    case follows =>
      simp only [append_nil]
      exact ⟨follows.fresh, follows.begins⟩
    case sender => exact sending.sender
    case receiver =>
      have available : next.dataAvailable = (s.sock x).dataAvailable := idle.dataAvailable
      have received : next.receivedData = (s.sock x).receivedData := idle.receivedData
      simp only [append_nil, available, received]
      refine receiver.reply fun p member acks => absurd ?_ acks
      rw [sending.plain p member]
      decide
    case further =>
      have available : next.dataAvailable = (s.sock x).dataAvailable := idle.dataAvailable
      simp [available]
    case msgs => exact sending.msgs
    case forgotten => exact fun p member => by cases member
  · have same : (next, sent) = (s.sock x, []) := by
      unfold Socket.isOpen at isOpen
      unfold Socket.sendto at ran
      split at ran
      next => exact (Except.ok.inj ran).symm
      next => exact (Except.ok.inj ran).symm
      next alive opened => exact absurd ⟨alive, opened⟩ isOpen
    obtain ⟨rfl, rfl⟩ := Prod.mk.inj same
    constructor
    case acc => exact inv.acc x
    case stream => simpa using (inv.stream x).write buf
    case curSeq => exact fun opened => absurd opened isOpen
    case follows => simpa using inv.follows x
    case sender => simpa using (inv.delivery x).write buf
    case receiver => simpa using receiver
    case further => simp
    case msgs => simpa using inv.msgs x
    case forgotten => exact fun p member => by cases member

lemma recvfrom_inv (inv : s.Inv base) {len : BitVec 32} {dontWait : Bool} {next : Socket}
    {reply : Reply} (ran : (s.sock x).recvfrom len dontWait = .ok (next, reply)) :
    (s.apply x ⟨next, [], [], reply.bytes, []⟩).Inv base := by
  have receiver := inv.delivery x.other
  rw [Side.other_other] at receiver
  apply apply_inv inv
  by_cases some : (s.sock x).dataAvailable = 0
  · have same : (next, reply) = (s.sock x, (s.sock x).nothing dontWait) := by
      rw [Socket.recvfrom, if_pos some] at ran
      exact (Except.ok.inj ran).symm
    obtain ⟨rfl, rfl⟩ := Prod.mk.inj same
    have nothing : ((s.sock x).nothing dontWait).bytes = [] := by
      unfold Socket.nothing
      cases (s.sock x).status <;> cases dontWait <;> rfl
    rw [nothing]
    exact idle_allowed inv (Socket.idle_refl _) fun p member => by cases member
  have begins := (inv.follows x).begins (.inr some)
  obtain ⟨_, bytes, ran', acc, delivery, beg, further, status, curSeq, msgs⟩ :=
    receiver.recvfrom (inv.acc x) (inv.stream x.other) begins some len dontWait
  rw [ran] at ran'
  obtain ⟨rfl, rfl⟩ := Prod.mk.inj (Except.ok.inj ran')
  constructor
  case acc => exact acc
  case stream => simpa using inv.stream x
  case curSeq =>
    intro isOpen
    rw [Socket.isOpen, status] at isOpen
    simpa [curSeq] using inv.curSeq x isOpen
  case follows =>
    refine ⟨fun shaking => ?_, fun _ => beg⟩
    exact absurd ((inv.follows x).fresh (status ▸ shaking)).2.1 some
  case sender => simpa using inv.delivery x
  case receiver =>
    simp only [append_nil]
    exact delivery
  case further => exact further.ge
  case msgs =>
    rw [msgs]
    simpa using inv.msgs x
  case forgotten => exact fun p member => by cases member

lemma set_inv (inv : s.Inv base) {t : Socket} (idle : (s.sock x).Idle t) : (s.set x t).Inv base :=
  apply_inv inv (idle_allowed inv idle fun p member => by cases member)

lemma step_inv {next : Pair} {a : Action} (inv : s.Inv base) (move : s.step a = some next) :
    next.Inv base := by
  cases a with
  | sendto x buf natives =>
    simp only [step] at move
    split at move
    next => cases move
    next sent ran =>
      cases move
      exact sendto_inv inv ran
  | deliver x packet =>
    obtain ⟨arrived, rfl⟩ := Option.ite_some_none_eq_some.mp move
    exact deliver_inv inv arrived
  | recvfrom x len dontWait =>
    simp only [step] at move
    split at move
    next => cases move
    next reply ran =>
      cases move
      exact recvfrom_inv inv ran
  | retransmit x packet =>
    obtain ⟨pending, rfl⟩ := Option.ite_some_none_eq_some.mp move
    exact apply_inv inv (retransmit_allowed inv pending)
  | abandon x packet =>
    cases move
    exact set_inv inv ⟨.inl rfl, rfl, erase_subset, rfl, rfl, rfl, rfl⟩
  | closeStream x =>
    cases move
    exact set_inv inv ⟨.inr rfl, rfl, nil_subset _, rfl, rfl, rfl, rfl⟩
  | setRcvbuf x size =>
    cases move
    exact set_inv inv ⟨.inl rfl, rfl, List.Subset.refl _, rfl, rfl, rfl, rfl⟩

lemma reachable_inv (reachable : (connection base).Reachable s) : s.Inv base := by
  apply reachable.invariant
  · exact fun _ start => start_inv start
  · exact fun _ _ _ inv move => step_inv inv move

end Pair

namespace Socket

lemma confirm_kept {s : Socket} (packet : Packet) {p : Packet}
    (alive : s.status = .connected ∨ s.status = .handshaking) (pending : p ∈ s.msgs) :
    p ∈ (s.confirm packet).msgs ∨ p ∈ s.confirmed packet := by
  unfold confirm confirmed
  by_cases acks : packet.flags &&& Flags.ack ≠ 0
  · rw [if_pos acks, if_pos ⟨alive, acks⟩]
    by_cases before : p.seq < packet.ack
    · exact .inr (mem_filter.mpr ⟨pending, by simpa using before⟩)
    · exact .inl (mem_filter.mpr ⟨pending, by simpa using before⟩)
  · rw [if_neg acks]
    exact .inl pending

lemma handleData_msgs (s : Socket) (packet : Packet) : (s.handleData packet).1.msgs = s.msgs := by
  unfold handleData receive
  repeat' split
  all_goals rfl

lemma handleConnected_msgs (s : Socket) (packet : Packet) :
    (s.handleConnected packet).1.status = .disconnected ∨
      ∀ p ∈ s.msgs, p ∈ (s.handleConnected packet).1.msgs ∨ p ∈ s.confirmed packet := by
  fun_cases Socket.handleConnected s packet with
  | case1 shaking | case2 shaking => exact .inr fun p => confirm_kept packet (.inr shaking)
  | case3 connected =>
    rw [handleData_msgs]
    exact .inr fun p => confirm_kept packet (.inl connected)
  | case4 => exact .inl rfl
  | case5 connected => exact .inr fun p => confirm_kept packet (.inl connected)
  | case6 => exact .inr fun p pending => .inl pending

lemma sendLoop_nil (s : Socket) (fuel : Nat) (natives : List Bool) :
    s.sendLoop fuel [] natives = .ok (s, []) := by
  cases fuel <;> rfl

/-- A chunk of the maximal size makes a packet of 65535 bytes, which `generate_u2s_packet` refuses:
no buffer that would have to be cut up gets through. -/
lemma sendto_ensure_iff {s : Socket} (isOpen : s.isOpen) (buf : List Byte) (natives : List Bool) :
    s.sendto buf natives = .error .ensure ↔ maxDataLen ≤ buf.length := by
  rw [sendto_open isOpen]
  cases buf with
  | nil => simp [sendLoop_nil, maxDataLen, headerSize]
  | cons byte rest =>
    have chunk : ((byte :: rest).take maxDataLen).length = min maxDataLen (byte :: rest).length :=
      length_take
    simp only [length_cons, sendLoop, cons_ne_nil, if_false]
    by_cases fits : maxDataLen ≤ (byte :: rest).length
    · rw [dif_neg (by rw [chunk, min_eq_left fits]; decide)]
      simpa using fits
    have all : (byte :: rest).drop maxDataLen = [] := drop_eq_nil_of_le (by omega)
    have small : headerSize + ((byte :: rest).take maxDataLen).length < 65535 := by
      rw [chunk, min_eq_right (by omega)]
      simp only [maxDataLen, headerSize] at *
      omega
    rw [dif_pos small, all, sendLoop_nil]
    simpa [Except.map] using fits

end Socket

theorem stream_delivered {base : Side -> Nat} {s : Pair} (reachable : (connection base).Reachable s)
    (x : Side) :
    s.returned x.other <+: s.written x ∧
      (∀ p ∈ s.forgotten x, ∀ i byte, p.data[i]? = some byte ->
        (s.returned x.other)[p.seq + i - base x]? = some byte ∨
          ∃ key data, (s.sock x.other).receivedData.find? key = some data ∧ key ≤ p.seq + i ∧
            data[p.seq + i - key]? = some byte) ∧
      ∀ packet next, s.step (.deliver x packet) = some next ->
        (next.sock x).status = .disconnected ∨
          ∀ p ∈ (s.sock x).msgs, p ∈ (next.sock x).msgs ∨ p ∈ next.forgotten x := by
  have inv := Pair.reachable_inv reachable
  refine ⟨(inv.delivery x).read, fun p member i byte at_ => ?_, fun packet next move => ?_⟩
  · obtain ⟨known, bounded⟩ := inv.forgotten x p member
    exact (inv.delivery x).holds (inv.stream x) known bounded at_
  obtain ⟨_, rfl⟩ := Option.ite_some_none_eq_some.mp move
  simp only [Pair.deliver, Pair.apply, Function.update_self]
  exact ((s.sock x).handleConnected_msgs packet).imp_right fun kept p pending =>
    (kept p pending).imp_right (mem_append_right _)

def bases : Side -> Nat
  | .left => 100
  | .right => 200

def greeted : Pair where
  sock := fun x => ⟨.connected, 65535, bases x, bases x.other, 0, ∅, 0, []⟩
  sent := fun _ => []
  written := fun _ => []
  returned := fun _ => []
  forgotten := fun _ => []

-- The second packet overtakes the first one, whose copy arrives after it was read in part.
def overtaking : List Action :=
  let first : Packet := ⟨100, 0, 0, [1, 2, 3], by decide⟩
  let second : Packet := ⟨103, 0, 0, [4, 5], by decide⟩
  [.sendto .left first.data [], .sendto .left second.data [], .deliver .right second,
    .deliver .right first, .recvfrom .right 2 false, .retransmit .left first, .deliver .right first,
    .deliver .left (ackPacket 105), .recvfrom .right 10 false]

theorem stream_delivered_overtaken :
    ∃ s : Pair, s.returned .right = [1, 2, 3, 4, 5] ∧ (s.forgotten .left).length = 2 ∧
      s.returned .right <+: s.written .left := by
  have ran : (connection bases).run greeted overtaking = some _ :=
    (Option.some_get (show ((connection bases).run greeted overtaking).isSome by decide)).symm
  have start : (connection bases).Reachable greeted := by
    refine .init fun x => ⟨?_, rfl, rfl, rfl⟩
    refine ⟨.inl ⟨rfl, rfl⟩, rfl, ⟨rfl, rfl, rfl⟩, ?_, ?_, ?_, ?_⟩ <;> simp [greeted]
  have reachable := start.run overtaking ran
  exact ⟨_, by decide, by decide, (stream_delivered reachable .left).1⟩

-- What an acknowledgement covers is with the side that sent it.
theorem acknowledged_arrived {base : Side -> Nat} {s : Pair} (reachable : (connection base).Reachable s) (x : Side) :
    ∀ ack ∈ s.sent x.other, ack.acks -> ∀ p ∈ s.sent x, p.stop ≤ ack.ack -> ∀ i byte, p.data[i]? = some byte ->
      (s.returned x.other)[p.seq + i - base x]? = some byte ∨
        ∃ key data, (s.sock x.other).receivedData.find? key = some data ∧ key ≤ p.seq + i ∧
          data[p.seq + i - key]? = some byte := by
  intro ack replied acks p sent covered i byte at_
  have inv := Pair.reachable_inv reachable
  have reached := (inv.delivery x).acked ack replied acks
  exact (inv.delivery x).holds (inv.stream x) sent (fun _ => covered.trans reached) at_

theorem acknowledged_arrived_overtaken : ∃ s : Pair, ackPacket 105 ∈ s.sent .right ∧ (s.returned .right)[4]? = some 5 := by
  have ran := (Option.some_get (show ((connection bases).run greeted overtaking).isSome by decide)).symm
  have start : (connection bases).Reachable greeted := by
    refine .init fun x => ⟨⟨.inl ⟨rfl, rfl⟩, rfl, ⟨rfl, rfl, rfl⟩, ?_, ?_, ?_, ?_⟩, rfl, rfl, rfl⟩ <;> simp [greeted]
  have arrived := acknowledged_arrived (start.run _ ran) .left (ackPacket 105) (by decide) (by rw [Packet.acks]; decide)
    ⟨103, 0, 0, [4, 5], by decide⟩ (by decide) (by decide) 1 5 rfl
  rcases arrived with here | ⟨_, _, ⟨⟩, _⟩
  exact ⟨_, by decide, here⟩

end EmuCore.Net.P2ps
