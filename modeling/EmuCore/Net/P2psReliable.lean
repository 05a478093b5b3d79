import EmuCore.Net.P2psDelivery

namespace EmuCore.Net.P2ps

open Segments Function

inductive Side
  | left
  | right
deriving DecidableEq, Repr

def Side.other : Side -> Side
  | .left => .right
  | .right => .left

@[simp] lemma Side.other_other (x : Side) : x.other.other = x := by cases x <;> rfl

@[simp] lemma Side.other_ne (x : Side) : x.other ≠ x := by cases x <;> decide

lemma Side.both {P : Side -> Prop} (x : Side) (here : P x) (there : P x.other) (y : Side) : P y := by
  cases x <;> cases y <;> assumption

/-- The two ends of a connection. The network may deliver what was sent any number of times and in
any order. Of each side, `written` are the buffers given to sendto, `returned` the bytes recvfrom
gave out, and `forgotten` the messages its monitor dropped when they were acknowledged. -/
structure Pair where
  sock : Side -> Socket
  sent : Side -> List Packet
  written : Side -> List Byte
  returned : Side -> List Byte
  forgotten : Side -> List Packet

inductive Action
  | sendto (x : Side) (buf : List Byte) (natives : List Bool)
  | deliver (x : Side) (packet : Packet)
  | recvfrom (x : Side) (len : BitVec 32) (dontWait : Bool)
  | retransmit (x : Side) (packet : Packet)
  | abandon (x : Side) (packet : Packet)
  | closeStream (x : Side)
  | setRcvbuf (x : Side) (size : Nat)

structure Effect where
  next : Socket
  sent : List Packet
  written : List Byte
  returned : List Byte
  forgotten : List Packet

def Pair.apply (s : Pair) (x : Side) (e : Effect) : Pair where
  sock := update s.sock x e.next
  sent := update s.sent x (s.sent x ++ e.sent)
  written := update s.written x (s.written x ++ e.written)
  returned := update s.returned x (s.returned x ++ e.returned)
  forgotten := update s.forgotten x (s.forgotten x ++ e.forgotten)

def Pair.set (s : Pair) (x : Side) (next : Socket) : Pair := s.apply x ⟨next, [], [], [], []⟩

def Reply.bytes : Reply -> List Byte
  | .data bytes => bytes
  | _ => []

def Socket.confirmed (s : Socket) (packet : Packet) : List Packet :=
  if (s.status = .connected ∨ s.status = .handshaking) ∧ packet.flags &&& Flags.ack ≠ 0 then
    s.msgs.filter fun msg => msg.seq < packet.ack
  else []

def Pair.deliver (s : Pair) (x : Side) (packet : Packet) : Pair :=
  s.apply x
    { next := ((s.sock x).handleConnected packet).1
      sent := ((s.sock x).handleConnected packet).2
      written := []
      returned := []
      forgotten := (s.sock x).confirmed packet }

def Pair.step (s : Pair) : Action -> Option Pair
  | .sendto x buf natives =>
    match (s.sock x).sendto buf natives with
    | .error _ => none
    | .ok (next, sent) => some (s.apply x ⟨next, sent, buf, [], []⟩)
  | .deliver x packet =>
    if packet ∈ s.sent x.other then some (s.deliver x packet) else none
  | .recvfrom x len dontWait =>
    match (s.sock x).recvfrom len dontWait with
    | .error _ => none
    | .ok (next, reply) => some (s.apply x ⟨next, [], [], reply.bytes, []⟩)
  | .retransmit x packet =>
    if packet ∈ (s.sock x).msgs then some (s.apply x ⟨s.sock x, [packet], [], [], []⟩) else none
  | .abandon x packet =>
    some (s.set x { s.sock x with msgs := (s.sock x).msgs.erase packet })
  | .closeStream x => some (s.set x (s.sock x).closeStream)
  | .setRcvbuf x size => some (s.set x { s.sock x with soRcvbuf := size })

/-- A side after the handshake, or one that still waits for the peer's SYN|ACK. Its stream starts at
`base`, the peer's at `peer`; only packets of the handshake have been sent. -/
structure Socket.Greeted (s : Socket) (base peer : Nat) (sent : List Packet) : Prop where
  status : s.status = .connected ∧ s.dataBegSeq = peer ∨ s.status = .handshaking
  curSeq : s.curSeq = base
  empty : s.receivedData = ∅ ∧ s.receivedDataSize = 0 ∧ s.dataAvailable = 0
  msgs : ∀ p ∈ s.msgs, p ∈ sent
  control : ∀ p ∈ sent, p.data = []
  acked : ∀ p ∈ sent, p.acks -> p.ack ≤ peer
  greeting : ∀ p ∈ sent, p.greets -> p.seq + 1 = base

def connection (base : Side -> Nat) : Transition.System Pair Action where
  init s := ∀ x, (s.sock x).Greeted (base x) (base x.other) (s.sent x) ∧ s.written x = [] ∧
    s.returned x = [] ∧ s.forgotten x = []
  step := Pair.step

def Socket.isOpen (s : Socket) : Prop := s.status ≠ .disconnected ∧ s.status ≠ .closed

structure Socket.Follows (s : Socket) (peer : Nat) (returned : List Byte) : Prop where
  fresh : s.status = .handshaking -> s.receivedData = ∅ ∧ s.dataAvailable = 0 ∧ returned = []
  begins : s.status = .connected ∨ s.dataAvailable ≠ 0 -> s.dataBegSeq = peer + returned.length

structure Pair.Inv (base : Side -> Nat) (s : Pair) : Prop where
  acc : ∀ x, (s.sock x).Accounted
  stream : ∀ x, Stream (base x) (s.written x) (s.sent x)
  curSeq : ∀ x, (s.sock x).isOpen -> (s.sock x).curSeq = base x + (s.written x).length
  follows : ∀ x, (s.sock x).Follows (base x.other) (s.returned x)
  delivery : ∀ x, Delivery (base x) (s.written x) (s.sent x) (s.sock x.other).dataAvailable
    (s.sock x.other).receivedData (s.returned x.other) (s.sent x.other)
  msgs : ∀ x, ∀ p ∈ (s.sock x).msgs, p ∈ s.sent x
  forgotten : ∀ x, ∀ p ∈ s.forgotten x, p ∈ s.sent x ∧ (p.data ≠ [] ->
    p.stop ≤ base x + (s.returned x.other).length + (s.sock x.other).dataAvailable)

namespace Pair

variable {base : Side -> Nat} {s : Pair}

lemma start_inv (start : (connection base).init s) : s.Inv base where
  acc := fun x => Socket.empty_accounted (start x).1.empty.1 (start x).1.empty.2.1 (start x).1.empty.2.2
  stream := fun x => by
    have control := (start x).1.control
    exact ⟨fun p member filled => absurd (control p member) filled,
      fun p member filled => absurd (control p member) filled,
      fun p member q _ filled => absurd (control p member) filled, (start x).1.greeting⟩
  curSeq := fun x _ => by simp [(start x).1.curSeq, (start x).2.1]
  follows := fun x => by
    obtain ⟨⟨status, _, ⟨received, _, available⟩, _, _, _, _⟩, _, returned, _⟩ := start x
    refine ⟨fun _ => ⟨received, available, returned⟩, fun follows => ?_⟩
    rcases status with ⟨_, beg⟩ | shaking
    · simp [beg, returned]
    · simp [shaking, available] at follows
  delivery := fun x => by
    obtain ⟨⟨_, _, ⟨received, _, available⟩, _, _, acked, _⟩, _, returned, _⟩ := start x.other
    rw [Side.other_other] at acked
    rw [received, available, returned]
    refine ⟨List.nil_prefix, ?_, ?_, .done _,
      fun p member filled => absurd ((start x).1.control p member) filled, acked⟩
    · intro key data found
      cases found
    · intro key data found
      cases found
  msgs := fun x => (start x).1.msgs
  forgotten := fun x p member => by
    rw [(start x).2.2.2] at member
    cases member

structure Allowed (base : Side -> Nat) (s : Pair) (x : Side) (e : Effect) : Prop where
  acc : e.next.Accounted
  stream : Stream (base x) (s.written x ++ e.written) (s.sent x ++ e.sent)
  curSeq : e.next.isOpen -> e.next.curSeq = base x + (s.written x ++ e.written).length
  follows : e.next.Follows (base x.other) (s.returned x ++ e.returned)
  sender : Delivery (base x) (s.written x ++ e.written) (s.sent x ++ e.sent)
    (s.sock x.other).dataAvailable (s.sock x.other).receivedData (s.returned x.other)
    (s.sent x.other)
  receiver : Delivery (base x.other) (s.written x.other) (s.sent x.other) e.next.dataAvailable
    e.next.receivedData (s.returned x ++ e.returned) (s.sent x ++ e.sent)
  further : (s.returned x).length + (s.sock x).dataAvailable ≤
    (s.returned x ++ e.returned).length + e.next.dataAvailable
  msgs : ∀ p ∈ e.next.msgs, p ∈ s.sent x ++ e.sent
  forgotten : ∀ p ∈ e.forgotten, p ∈ s.sent x ∧ (p.data ≠ [] ->
    p.stop ≤ base x + (s.returned x.other).length + (s.sock x.other).dataAvailable)

lemma apply_inv (inv : s.Inv base) {x : Side} {e : Effect} (allowed : Allowed base s x e) :
    (s.apply x e).Inv base where
  acc := Side.both x (by simpa [apply] using allowed.acc) (by simpa [apply] using inv.acc x.other)
  stream := Side.both x (by simpa [apply] using allowed.stream)
    (by simpa [apply] using inv.stream x.other)
  curSeq := Side.both x (by simpa [apply] using allowed.curSeq)
    (by simpa [apply] using inv.curSeq x.other)
  follows := Side.both x (by simpa [apply] using allowed.follows)
    (by simpa [apply] using inv.follows x.other)
  delivery := Side.both x (by simpa [apply] using allowed.sender)
    (by simpa [apply] using allowed.receiver)
  msgs := Side.both x (by simpa [apply] using allowed.msgs) (by simpa [apply] using inv.msgs x.other)
  forgotten := Side.both x
    (fun p member => by
      have known : p ∈ s.forgotten x ++ e.forgotten := by simpa [apply] using member
      have held := (List.mem_append.mp known).elim (inv.forgotten x p) (allowed.forgotten p)
      refine ⟨?_, by simpa [apply] using held.2⟩
      simpa [apply] using Or.inl held.1)
    (fun p member => by
      have held := inv.forgotten x.other p (by simpa [apply] using member)
      refine ⟨by simpa [apply] using held.1, fun filled => ?_⟩
      have stop := held.2 filled
      have further := allowed.further
      rw [Side.other_other] at stop
      simp only [apply, Side.other_other, update_self]
      omega)

end Pair

open List

variable {t : Socket} {packet : Packet}

namespace Socket

lemma sendAck_none (sized : Sized t.receivedData) :
    t.receivedData.find? (t.sendAck.1.dataBegSeq + t.sendAck.1.dataAvailable) = none := by
  rw [sendAck_end]
  exact finalAck_ends sized (length_filter_le _ _)

structure Acking (s t : Socket) (packet : Packet) : Prop where
  status : t.status = .connected
  curSeq : t.curSeq = s.curSeq
  msgs : t.msgs ⊆ s.msgs
  stored : t.receivedData = s.receivedData ∨
    s.receivedData.find? packet.seq = none ∧
      t.receivedData = s.receivedData.insert packet.seq packet.data
  begins : s.status = .connected ∧ t.dataBegSeq = s.dataBegSeq ∨
    s.status = .handshaking ∧ packet.greets ∧ t.dataBegSeq = packet.seq + 1

structure Idle (s t : Socket) : Prop where
  status : t.status = s.status ∨ t.status = .disconnected
  curSeq : t.curSeq = s.curSeq
  msgs : t.msgs ⊆ s.msgs
  dataBegSeq : t.dataBegSeq = s.dataBegSeq
  dataAvailable : t.dataAvailable = s.dataAvailable
  receivedData : t.receivedData = s.receivedData
  receivedDataSize : t.receivedDataSize = s.receivedDataSize

variable {s : Socket}

lemma idle_refl (s : Socket) : s.Idle s :=
  ⟨.inl rfl, rfl, List.Subset.refl _, rfl, rfl, rfl, rfl⟩

lemma Idle.accounted (idle : s.Idle t) (acc : s.Accounted) : t.Accounted where
  size := by
    rw [idle.receivedDataSize, idle.receivedData]
    exact acc.size
  sized := by
    rw [idle.receivedData]
    exact acc.sized
  chain := by
    rw [idle.receivedData, idle.dataBegSeq, idle.dataAvailable]
    exact acc.chain

lemma Idle.same_status (idle : s.Idle t) (alive : t.status ≠ .disconnected) :
    t.status = s.status :=
  idle.status.resolve_right alive

lemma Idle.follows (idle : s.Idle t) {peer : Nat} {returned : List Byte} (follows : s.Follows peer returned) :
    t.Follows peer returned where
  fresh := fun shaking => by
    have same := idle.same_status (by simp [shaking])
    rw [idle.receivedData, idle.dataAvailable]
    exact follows.fresh (same ▸ shaking)
  begins := fun begun => by
    rw [idle.dataBegSeq]
    refine follows.begins (begun.imp (fun connected => ?_) (idle.dataAvailable ▸ ·))
    exact idle.same_status (by simp [connected]) ▸ connected

lemma Idle.isOpen (idle : s.Idle t) (isOpen : t.isOpen) : s.isOpen := by
  rwa [Socket.isOpen, idle.same_status isOpen.1] at isOpen

lemma confirm_idle (s : Socket) (packet : Packet) : s.Idle (s.confirm packet) := by
  unfold confirm
  split
  next => exact ⟨.inl rfl, rfl, fun _ member => mem_of_mem_filter member, rfl, rfl, rfl, rfl⟩
  next => exact idle_refl s

lemma confirm_status (s : Socket) (packet : Packet) : (s.confirm packet).status = s.status := by
  unfold confirm
  split <;> rfl

lemma receive_acking (connected : s.status = .connected) :
    s.Acking ((s.confirm packet).receive packet) packet := by
  have idle := confirm_idle s packet
  have status := (confirm_status s packet).trans connected
  unfold receive
  split
  next new =>
    split
    next =>
      exact ⟨status, idle.curSeq, idle.msgs, .inl idle.receivedData, .inl ⟨connected, idle.dataBegSeq⟩⟩
    next =>
      rw [idle.receivedData] at new
      refine ⟨status, idle.curSeq, idle.msgs, .inr ⟨new.1, ?_⟩, .inl ⟨connected, idle.dataBegSeq⟩⟩
      simp only [store, idle.receivedData]
  next =>
    exact ⟨status, idle.curSeq, idle.msgs, .inl idle.receivedData, .inl ⟨connected, idle.dataBegSeq⟩⟩

variable (acking : s.Acking t packet)

include acking

lemma Acking.grown {key : Nat} {data : List Byte}
    (found : s.receivedData.find? key = some data) :
    t.receivedData.find? key = some data := by
  rcases acking.stored with same | ⟨absent, inserted⟩
  · rw [same, found]
  have other : key ≠ packet.seq := fun same => by
    rw [same, absent] at found
    cases found
  rw [inserted, SortedMap.find?_insert, if_neg other, found]

lemma Acking.parts {packets : List Packet} (arrived : packet ∈ packets)
    (parts : Parts packets s.receivedData) :
    Parts packets t.receivedData := by
  rcases acking.stored with same | ⟨_, inserted⟩
  · rwa [same]
  · rw [inserted]
    exact parts.insert arrived

lemma Acking.follows {peer : Nat} {returned : List Byte}
    (follows : s.Follows peer returned) (greeting : packet.greets -> packet.seq + 1 = peer) :
    t.dataBegSeq = peer + returned.length := by
  rcases acking.begins with ⟨connected, same⟩ | ⟨shaking, greets, same⟩
  · rw [same, follows.begins (.inl connected)]
  · rw [same, (follows.fresh shaking).2.2, greeting greets]
    rfl

lemma Acking.isOpen : s.isOpen := by
  rcases acking.begins with ⟨connected, _⟩ | ⟨shaking, _⟩
  · simp [Socket.isOpen, connected]
  · simp [Socket.isOpen, shaking]

omit acking

lemma sendAck_plain {p : Packet} (member : p ∈ t.sendAck.2) :
    p.data = [] ∧ ¬p.greets := by
  obtain rfl := mem_singleton.mp member
  exact ⟨rfl, show ¬Flags.ack = Flags.syn ||| Flags.ack by decide⟩

lemma handleConnected_cases (s : Socket) (packet : Packet) :
    (∃ t, s.handleConnected packet = t.sendAck ∧ s.Acking t packet) ∨
      ∃ t, s.handleConnected packet = (t, []) ∧ s.Idle t := by
  have idle := confirm_idle s packet
  fun_cases handleConnected s packet with
  | case1 shaking greets =>
    exact .inl ⟨_, rfl, rfl, idle.curSeq, idle.msgs, .inl idle.receivedData, .inr ⟨shaking, greets, rfl⟩⟩
  | case2 | case5 => exact .inr ⟨_, rfl, idle⟩
  | case3 connected =>
    fun_cases handleData (s.confirm packet) packet with
    | case1 =>
      exact .inl ⟨_, rfl, (confirm_status s packet).trans connected, idle.curSeq, idle.msgs,
        .inl idle.receivedData, .inl ⟨connected, idle.dataBegSeq⟩⟩
    | case2 => exact .inr ⟨_, rfl, idle⟩
    | case3 => exact .inl ⟨_, rfl, receive_acking connected⟩
  | case4 =>
    exact .inr ⟨_, rfl, .inr rfl, idle.curSeq, nil_subset _, idle.dataBegSeq,
      idle.dataAvailable, idle.receivedData, idle.receivedDataSize⟩
  | case6 => exact .inr ⟨s, rfl, idle_refl s⟩

end Socket

namespace Pair

variable {base : Side -> Nat} {s : Pair} {x : Side}

variable (inv : s.Inv base)

include inv

lemma idle_allowed (idle : (s.sock x).Idle t)
    {forgotten : List Packet} (acked : ∀ p ∈ forgotten, p ∈ s.sent x ∧ (p.data ≠ [] ->
      p.stop ≤ base x + (s.returned x.other).length + (s.sock x.other).dataAvailable)) :
    Allowed base s x ⟨t, [], [], [], forgotten⟩ := by
  have receiver := inv.delivery x.other
  rw [Side.other_other] at receiver
  constructor
  case acc => exact idle.accounted (inv.acc x)
  case stream => simpa using inv.stream x
  case curSeq =>
    intro isOpen
    simpa [idle.curSeq] using inv.curSeq x (idle.isOpen isOpen)
  case follows => simpa using idle.follows (inv.follows x)
  case sender => simpa using inv.delivery x
  case receiver => simpa [idle.dataAvailable, idle.receivedData] using receiver
  case further => simp [idle.dataAvailable]
  case msgs =>
    intro p member
    simpa using inv.msgs x p (idle.msgs member)
  case forgotten => exact acked

lemma retransmit_allowed (pending : packet ∈ (s.sock x).msgs) :
    Allowed base s x ⟨s.sock x, [packet], [], [], []⟩ := by
  have known := inv.msgs x packet pending
  have receiver := inv.delivery x.other
  rw [Side.other_other] at receiver
  have only : ∀ {P : Packet -> Prop}, P packet -> ∀ p ∈ [packet], P p := fun holds p member =>
    mem_singleton.mp member ▸ holds
  constructor
  case acc => exact inv.acc x
  case stream => simpa using (inv.stream x).send (only (.inl known))
  case curSeq => simpa using inv.curSeq x
  case follows => simpa using inv.follows x
  case sender => simpa using (inv.delivery x).send (only ((inv.delivery x).boundary packet known))
  case receiver => simpa using receiver.reply (only (receiver.acked packet known))
  case further => simp
  case msgs => exact fun p member => mem_append_left _ (inv.msgs x p member)
  case forgotten => exact fun p member => by cases member

variable (arrived : packet ∈ s.sent x.other)

include arrived

-- An acknowledgement ends where a packet ends, so a message below it is below it as a whole.
lemma confirmed_held {p : Packet}
    (member : p ∈ (s.sock x).confirmed packet) : p ∈ s.sent x ∧ (p.data ≠ [] ->
      p.stop ≤ base x + (s.returned x.other).length + (s.sock x.other).dataAvailable) := by
  unfold Socket.confirmed at member
  split at member
  next acks =>
    obtain ⟨pending, before⟩ := mem_filter.mp member
    have known := inv.msgs x p pending
    have bounded := (inv.delivery x).acked packet arrived acks.2
    rw [decide_eq_true_eq] at before
    refine ⟨known, fun filled => ((inv.delivery x).boundary p known filled).resolve_left ?_⟩
    omega
  next => cases member

lemma acking_receives (acking : (s.sock x).Acking t packet)
    (acc : t.sendAck.1.Accounted) :
    (s.sock x).dataAvailable ≤ t.sendAck.1.dataAvailable ∧
      Delivery (base x.other) (s.written x.other) (s.sent x.other) t.sendAck.1.dataAvailable
        t.receivedData (s.returned x) (s.sent x ++ t.sendAck.2) := by
  have receiver := inv.delivery x.other
  rw [Side.other_other] at receiver
  have begins := acking.follows (inv.follows x) ((inv.stream x.other).greeting packet arrived)
  have stop : t.sendAck.1.dataBegSeq + t.sendAck.1.dataAvailable =
      base x.other + (s.returned x).length + t.sendAck.1.dataAvailable := by
    rw [← begins]
    rfl
  have sent : t.sendAck.2 =
      [ackPacket (base x.other + (s.returned x).length + t.sendAck.1.dataAvailable)] := by
    rw [← stop, Socket.sendAck_end]
    rfl
  have sized : Sized t.receivedData := acc.sized
  have chain : Contiguous t.receivedData.find? t.dataBegSeq _ := acc.chain
  have ends := Socket.sendAck_none sized
  rw [stop] at ends chain
  rw [begins] at chain
  rw [sent]
  exact receiver.acknowledge (inv.stream x.other) (fun key data => acking.grown)
    (acking.parts arrived receiver.parts) sized chain ends

lemma acking_allowed (acking : (s.sock x).Acking t packet) (acc : t.sendAck.1.Accounted)
    {forgotten : List Packet} (acked : ∀ p ∈ forgotten, p ∈ s.sent x ∧ (p.data ≠ [] ->
      p.stop ≤ base x + (s.returned x.other).length + (s.sock x.other).dataAvailable)) :
    Allowed base s x ⟨t.sendAck.1, t.sendAck.2, [], [], forgotten⟩ := by
  obtain ⟨further, receiver⟩ := acking_receives inv arrived acking acc
  constructor
  case acc => exact acc
  case stream =>
    simpa using (inv.stream x).send fun p member => .inr (Socket.sendAck_plain member)
  case curSeq =>
    intro _
    have same : t.sendAck.1.curSeq = (s.sock x).curSeq := acking.curSeq
    simpa [same] using inv.curSeq x acking.isOpen
  case follows =>
    simp only [append_nil]
    have connected : t.sendAck.1.status = .connected := acking.status
    refine ⟨fun shaking => ?_, fun _ =>
      acking.follows (inv.follows x) ((inv.stream x.other).greeting packet arrived)⟩
    rw [connected] at shaking
    cases shaking
  case sender =>
    simpa using (inv.delivery x).send fun p member filled =>
      absurd (Socket.sendAck_plain member).1 filled
  case receiver =>
    simp only [append_nil]
    exact receiver
  case further => simpa using further
  case msgs => exact fun p member => mem_append_left _ (inv.msgs x p (acking.msgs member))
  case forgotten => exact acked

lemma deliver_inv :
    (s.deliver x packet).Inv base := by
  have acc := Socket.handleConnected_accounted (inv.acc x) packet
  apply apply_inv inv
  rcases (s.sock x).handleConnected_cases packet with ⟨t, result, acking⟩ | ⟨t, result, idle⟩
  · rw [result] at acc ⊢
    exact acking_allowed inv arrived acking acc fun p => confirmed_held inv arrived
  · rw [result]
    exact idle_allowed inv idle fun p => confirmed_held inv arrived

end Pair

end EmuCore.Net.P2ps
