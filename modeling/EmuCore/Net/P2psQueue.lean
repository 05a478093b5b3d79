import EmuCore.Net.P2psReceive

namespace EmuCore.Net.P2ps

open Segments

inductive Event
  | handleConnected (packet : Packet)
  | recvfrom (len : BitVec 32) (dontWait : Bool)
  | sendto (buf : List Byte) (natives : List Bool)
  | connect (seq : Nat) (native : Bool)
  | closeStream
  | setRcvbuf (size : Nat)

def Socket.event (s : Socket) : Event -> Option Socket
  | .handleConnected packet => some (s.handleConnected packet).1
  | .recvfrom len dontWait => (s.recvfrom len dontWait).toOption.map Prod.fst
  | .sendto buf natives => (s.sendto buf natives).toOption.map Prod.fst
  | .connect seq native => some (s.connect seq native).1
  | .closeStream => some s.closeStream
  | .setRcvbuf size => some { s with soRcvbuf := size }

def queue : Transition.System Socket Event where
  init s := s.receivedData = ∅ ∧ s.receivedDataSize = 0 ∧ s.dataAvailable = 0
  step := Socket.event

lemma toOption_map_fst {A B : Type} {result : Except Fault (A × B)} {a : A}
    (ran : result.toOption.map Prod.fst = some a) : ∃ b, result = .ok (a, b) := by
  cases result with
  | error fault => cases ran
  | ok pair =>
    obtain rfl : pair.1 = a := Option.some.inj ran
    exact ⟨pair.2, rfl⟩

lemma recvfrom_accounted {s : Socket} (acc : s.Accounted) (len : BitVec 32) (dontWait : Bool) :
    ∃ next reply, s.recvfrom len dontWait = .ok (next, reply) ∧ next.Accounted := by
  by_cases available : s.dataAvailable = 0
  · exact ⟨s, s.nothing dontWait, by rw [Socket.recvfrom, if_pos available]; rfl, acc⟩
  · obtain ⟨last, ran, _, _, _, _, next⟩ := Socket.recvfrom_rule (P := fun _ => True) acc len dontWait
      available (fun _ _ _ _ _ _ _ => trivial) trivial
    exact ⟨_, _, ran, next⟩

lemma event_accounted {s next : Socket} {e : Event} (acc : s.Accounted)
    (move : s.event e = some next) : next.Accounted := by
  cases e with
  | handleConnected packet =>
    cases move
    exact Socket.handleConnected_accounted acc packet
  | recvfrom len dontWait =>
    obtain ⟨reply, ran⟩ := toOption_map_fst move
    obtain ⟨_, _, ran', next⟩ := recvfrom_accounted acc len dontWait
    rw [ran] at ran'
    obtain ⟨rfl, rfl⟩ := Prod.mk.inj (Except.ok.inj ran')
    exact next
  | sendto buf natives =>
    obtain ⟨sent, ran⟩ := toOption_map_fst move
    exact Socket.sendto_accounted acc ran
  | connect seq native =>
    cases move
    exact Socket.connect_accounted acc seq native
  | closeStream | setRcvbuf size =>
    cases move
    exact { acc with }

lemma reachable_accounted {s : Socket} (reachable : queue.Reachable s) : s.Accounted := by
  apply reachable.invariant
  · intro s start
    exact Socket.empty_accounted start.1 start.2.1 start.2.2
  · intro s e next acc move
    exact event_accounted acc move

theorem queue_accounting {s : Socket} (reachable : queue.Reachable s) :
    s.receivedDataSize =
        (s.receivedData.entries.map fun entry => segmentOverhead + entry.2.length).sum ∧
      (0 < s.dataAvailable -> ∃ data, s.receivedData.find? s.dataBegSeq = some data) ∧
      ∀ len dontWait, (∃ next reply, s.recvfrom len dontWait = .ok (next, reply)) ∧
        ∀ rounds, ∃ c, (s.cursor len).run rounds = .ok c ∧
          (c.leftToGive ≠ 0 -> ∃ erased data, c.eraseStale = .ok erased ∧
            erased.receivedData.first? = some (s.dataBegSeq + (c.toGive - c.leftToGive), data)) := by
  have acc := reachable_accounted reachable
  refine ⟨acc.size, fun available => ?_, fun len dontWait => ⟨?_, fun rounds => ?_⟩⟩
  · obtain ⟨data, found, _⟩ := acc.chain.first (by omega)
    exact ⟨data, found⟩
  · obtain ⟨next, reply, ran, _⟩ := recvfrom_accounted acc len dontWait
    exact ⟨next, reply, ran⟩
  obtain ⟨c, ran, ok, beg, _⟩ := Cursor.run_rule (P := fun c => c.dataBegSeq = s.dataBegSeq)
    (fun _ _ _ _ _ gave beg => gave.dataBegSeq.trans beg) rounds (Socket.cursor_ok acc len) rfl
  refine ⟨c, ran, fun more => ?_⟩
  obtain ⟨data, _, first⟩ := Cursor.erased_first ok more
  refine ⟨c.erased, data, Cursor.eraseStale_eq ok, ?_⟩
  rw [first, Cursor.curPos, beg]

def accepted : Socket := ⟨.connected, 65535, 100, 10, 0, ∅, 0, []⟩

-- The second packet lies inside the first one, where the partial read puts its rest.
def overlapping : List Event :=
  [.handleConnected ⟨10, 0, 0, [1, 2, 3, 4], by decide⟩, .handleConnected ⟨12, 0, 0, [5], by decide⟩,
    .recvfrom 2 false]

theorem queue_accounting_overlap :
    ∃ s : Socket, s.receivedData.entries = [(12, [3, 4])] ∧ s.receivedDataSize = 6 ∧ s.dataAvailable = 2 ∧
      (∃ data, s.receivedData.find? s.dataBegSeq = some data) ∧
      ∃ next reply, s.recvfrom 5 true = .ok (next, reply) := by
  have ran : queue.run accepted overlapping = some _ :=
    (Option.some_get (show (queue.run accepted overlapping).isSome by decide)).symm
  have start : queue.Reachable accepted := .init ⟨rfl, rfl, rfl⟩
  have reachable := start.run overlapping ran
  obtain ⟨_, first, reads⟩ := queue_accounting reachable
  exact ⟨_, by decide, by decide, by decide, first (by decide), (reads 5 true).1⟩

end EmuCore.Net.P2ps
