import EmuCore.Lib.Segments
import EmuCore.Net.P2ps

namespace EmuCore.Net.P2ps

open Segments List Except

abbrev Received := SortedMap Nat (List Byte)

def queueCost (receivedData : Received) : Nat :=
  receivedData.total fun data => segmentCost data.length

def Sized (receivedData : Received) : Prop :=
  ∀ key data, receivedData.find? key = some data -> 0 < data.length ∧ data.length < 2 ^ 32

variable {receivedData : Received}

lemma Sized.insert (sized : Sized receivedData) {key : Nat} {data : List Byte} (filled : 0 < data.length)
    (small : data.length < 2 ^ 32) :
    Sized (receivedData.insert key data) := by
  intro j other found
  rw [SortedMap.find?_insert] at found
  split at found
  next =>
    cases found
    exact ⟨filled, small⟩
  next => exact sized j other found

lemma queueCost_insert {key : Nat} (absent : receivedData.find? key = none) (data : List Byte) :
    queueCost (receivedData.insert key data) = queueCost receivedData + segmentCost data.length := by
  have balance := receivedData.total_insert (fun data => segmentCost data.length) key data
  simpa [queueCost, absent] using balance

lemma finalAck_contiguous (receivedData : Received) (fuel pos : Nat) :
    Contiguous receivedData.find? pos (finalAck receivedData fuel pos) := by
  induction fuel generalizing pos with
  | zero => exact .done pos
  | succ fuel ih =>
    simp only [finalAck]
    cases found : receivedData.find? pos with
    | none => exact .done pos
    | some data => exact .next found (ih _)

lemma finalAck_ends (sized : Sized receivedData) {fuel pos : Nat}
    (enough : (receivedData.entries.filter fun entry => pos ≤ entry.1).length ≤ fuel) :
    receivedData.find? (finalAck receivedData fuel pos) = none := by
  induction fuel generalizing pos with
  | zero =>
    have nothing : ∀ entry ∈ receivedData.entries, ¬pos ≤ entry.1 := by
      simpa [filter_eq_nil_iff] using enough
    cases found : receivedData.find? pos with
    | none => exact found
    | some data => exact absurd le_rfl (nothing _ (SortedMap.find?_eq_some.mp found))
  | succ fuel ih =>
    simp only [finalAck]
    cases found : receivedData.find? pos with
    | none => exact found
    | some data =>
      apply ih
      have filled := (sized pos data found).1
      have narrower : receivedData.entries.filter (fun entry => pos + data.length ≤ entry.1) =
          (receivedData.entries.filter fun entry => pos ≤ entry.1).filter
            fun entry => pos + data.length ≤ entry.1 := by
        rw [filter_filter]
        refine filter_congr fun entry _ => ?_
        rw [← Bool.decide_and]
        exact decide_eq_decide.mpr (by omega)
      have passed : ∃ entry ∈ receivedData.entries.filter (fun entry => pos ≤ entry.1),
          ¬decide (pos + data.length ≤ entry.1) = true := by
        refine ⟨(pos, data), mem_filter.mpr ⟨SortedMap.find?_eq_some.mp found, by simp⟩, ?_⟩
        rw [decide_eq_true_eq]
        omega
      have fewer := length_filter_lt_length_iff_exists.mpr passed
      rw [narrower]
      omega

/-- The counter is the cost of the queue, and the available data are contiguous. -/
structure Socket.Accounted (s : Socket) : Prop where
  size : s.receivedDataSize = queueCost s.receivedData
  sized : Sized s.receivedData
  chain : Contiguous s.receivedData.find? s.dataBegSeq (s.dataBegSeq + s.dataAvailable)

namespace Socket

variable {s : Socket}

lemma sendAck_end (s : Socket) :
    s.sendAck.1.dataBegSeq + s.sendAck.1.dataAvailable =
      finalAck s.receivedData s.receivedData.entries.length s.dataBegSeq := by
  have forward := (finalAck_contiguous s.receivedData s.receivedData.entries.length s.dataBegSeq).le
  simp only [sendAck]
  omega

lemma sendAck_accounted (size : s.receivedDataSize = queueCost s.receivedData)
    (sized : Sized s.receivedData) : s.sendAck.1.Accounted where
  size := size
  sized := sized
  chain := by
    rw [sendAck_end]
    exact finalAck_contiguous _ _ _

variable (acc : s.Accounted)

include acc

section

variable (packet : Packet)

include packet

lemma receive_accounted :
    (s.receive packet).receivedDataSize = queueCost (s.receive packet).receivedData ∧
      Sized (s.receive packet).receivedData := by
  unfold receive
  split
  next new =>
    split
    next => exact ⟨acc.size, acc.sized⟩
    constructor
    · simp only [store, queueCost_insert new.1, acc.size]
    · exact acc.sized.insert (Nat.pos_of_ne_zero new.2) packet.small
  next => exact ⟨acc.size, acc.sized⟩

lemma handleData_accounted :
    (s.handleData packet).1.Accounted := by
  unfold handleData
  split
  next =>
    split
    next => exact sendAck_accounted acc.size acc.sized
    next => exact acc
  next =>
    obtain ⟨size, sized⟩ := receive_accounted acc packet
    exact sendAck_accounted size sized

lemma confirm_accounted : (s.confirm packet).Accounted := by
  unfold confirm
  split
  next => exact { acc with }
  next => exact acc

lemma handleConnected_accounted :
    (s.handleConnected packet).1.Accounted := by
  have confirmed := confirm_accounted acc packet
  fun_cases handleConnected s packet with
  | case1 => exact sendAck_accounted confirmed.size confirmed.sized
  | case2 | case5 => exact confirmed
  | case3 => exact handleData_accounted confirmed packet
  | case4 => exact { confirmed with }
  | case6 => exact acc

lemma sendU2sPacket_accounted (native : Bool) :
    (s.sendU2sPacket packet native).1.Accounted := by
  unfold sendU2sPacket
  split
  next => exact { acc with }
  next => exact acc

end

omit acc in
lemma empty_accounted (none : s.receivedData = ∅) (size : s.receivedDataSize = 0)
    (available : s.dataAvailable = 0) : s.Accounted where
  size := by simp [none, size, queueCost]
  sized := by
    intro key data found
    simp [none] at found
  chain := by
    rw [available]
    exact .done _

lemma connect_accounted (seq : Nat) (native : Bool) :
    (s.connect seq native).1.Accounted := by
  unfold connect
  split
  next => exact acc
  next => exact sendU2sPacket_accounted (empty_accounted rfl rfl rfl) _ native

lemma sendChunk_accounted (packet : Packet) (native : Bool) :
    (s.sendChunk packet native).1.Accounted := by
  have sent := sendU2sPacket_accounted acc packet native
  exact { sent with }

omit acc

lemma map_eq_ok {A B : Type} {f : A -> B} {result : Except Fault A} {b : B}
    (ran : result.map f = .ok b) : ∃ a, result = .ok a ∧ f a = b := by
  cases result with
  | error fault => cases ran
  | ok a => exact ⟨a, rfl, ok.inj ran⟩

lemma sendLoop_rule {P : Socket -> List Byte -> List Packet -> Prop}
    (keep : ∀ s written sent packet native, P s written sent -> packet.seq = s.curSeq ->
      packet.flags = 0 -> packet.data ≠ [] ->
      P (s.sendChunk packet native).1 (written ++ packet.data) (sent ++ (s.sendChunk packet native).2))
    {fuel : Nat} {buf : List Byte} {natives : List Bool} (written : List Byte) (sent : List Packet)
    (start : P s written sent) (enough : buf.length ≤ fuel) {next : Socket × List Packet}
    (ran : s.sendLoop fuel buf natives = .ok next) : P next.1 (written ++ buf) (sent ++ next.2) := by
  fun_induction sendLoop fuel s buf natives generalizing next written sent with
  | case1 s buf natives =>
    cases ran
    obtain rfl := length_eq_zero_iff.mp (Nat.le_zero.mp enough)
    simpa using start
  | case2 =>
    cases ran
    simpa using start
  | case3 fuel s buf natives filled inside after packets chunked ih =>
    obtain ⟨last, rest, rfl⟩ := map_eq_ok ran
    have chunk := keep s written sent ⟨s.curSeq, 0, 0, buf.take maxDataLen, by omega⟩
      (natives.headD true) start rfl rfl (by simp [filled, maxDataLen, headerSize])
    have shorter : (buf.drop maxDataLen).length ≤ fuel := by
      simp only [length_drop, maxDataLen, headerSize]
      omega
    rw [chunked] at chunk
    have all := ih _ _ chunk shorter rest
    rwa [append_assoc, append_assoc, take_append_drop] at all
  | case4 => cases ran

lemma sendto_accounted (acc : s.Accounted) {buf : List Byte} {natives : List Bool}
    {next : Socket × List Packet} : s.sendto buf natives = .ok next -> next.1.Accounted := by
  fun_cases sendto s buf natives with
  | case1 | case2 =>
    rintro ⟨⟩
    exact acc
  | case3 =>
    exact sendLoop_rule (P := fun s _ _ => s.Accounted)
      (fun s _ _ packet native acc _ _ _ => sendChunk_accounted acc packet native)
      [] [] acc le_rfl

end Socket

lemma sub_ok {a b : Nat} (enough : b ≤ a) : sub a b = .ok (a - b) := by
  simp [sub, enough]

lemma foldlM_sub {l : List (Nat × List Byte)} {size : Nat}
    (enough : SortedMap.sum (fun data => segmentCost data.length) l ≤ size) :
    l.foldlM (fun size entry => sub size (segmentCost entry.2.length)) size =
      .ok (size - SortedMap.sum (fun data => segmentCost data.length) l) := by
  induction l generalizing size with
  | nil => rfl
  | cons entry rest ih =>
    rw [SortedMap.sum_cons] at enough ⊢
    rw [foldlM_cons, sub_ok (by omega)]
    change List.foldlM _ (size - segmentCost entry.2.length) rest = _
    rw [ih (by omega)]
    congr 1
    omega

structure Cursor.Ok (c : Cursor) (stop : Nat) : Prop where
  size : c.receivedDataSize = queueCost c.receivedData + (c.toGive - c.leftToGive)
  sized : Sized c.receivedData
  left : c.leftToGive ≤ c.toGive
  chain : Contiguous c.receivedData.find? c.curPos stop
  enough : c.curPos + c.leftToGive ≤ stop

structure Cursor.Gave (c next : Cursor) (data : List Byte) : Prop where
  found : c.receivedData.find? c.curPos = some data
  dataBegSeq : next.dataBegSeq = c.dataBegSeq
  toGive : next.toGive = c.toGive
  leftToGive : next.leftToGive = c.leftToGive - data.length
  destBuf : next.destBuf = c.destBuf ++ data.take c.leftToGive
  kept : ∀ j, next.receivedData.find? j =
    if j ≤ c.curPos then none
    else if j = c.curPos + c.leftToGive ∧ c.leftToGive < data.length then
      some (data.drop c.leftToGive)
    else c.receivedData.find? j

variable {data : List Byte} {next : Cursor}

namespace Cursor

variable {c : Cursor} {stop : Nat}

def erased (c : Cursor) : Cursor :=
  { c with
    receivedData := c.receivedData.dropBelow c.curPos
    receivedDataSize := c.receivedDataSize -
      SortedMap.sum (fun data => segmentCost data.length) (c.receivedData.below c.curPos) }

lemma eraseStale_eq (ok : c.Ok stop) : c.eraseStale = .ok c.erased := by
  have parts := c.receivedData.total_dropBelow (fun data => segmentCost data.length) c.curPos
  have size := ok.size
  simp only [queueCost] at size
  have enough : SortedMap.sum (fun data => segmentCost data.length)
      (c.receivedData.below c.curPos) ≤ c.receivedDataSize := by omega
  simp only [eraseStale, foldlM_sub enough]
  rfl

lemma find?_erased (c : Cursor) (j : Nat) :
    c.erased.receivedData.find? j = if j < c.curPos then none else c.receivedData.find? j :=
  c.receivedData.find?_dropBelow c.curPos j

lemma erased_ok (ok : c.Ok stop) : c.erased.Ok stop where
  __ := ok
  size := by
    have parts := c.receivedData.total_dropBelow (fun data => segmentCost data.length) c.curPos
    have size := ok.size
    simp only [erased, queueCost] at size ⊢
    omega
  sized := by
    intro key data found
    rw [find?_erased] at found
    exact ok.sized key data (Option.ite_none_left_eq_some.mp found).2
  chain := ok.chain.mono fun j data after found => by
    rw [find?_erased, if_neg (not_lt.mpr after), found]

lemma erased_first (ok : c.Ok stop) (more : c.leftToGive ≠ 0) :
    ∃ data, c.receivedData.find? c.curPos = some data ∧
      c.erased.receivedData.first? = some (c.curPos, data) := by
  have enough := ok.enough
  obtain ⟨data, found, _⟩ := ok.chain.first (by omega)
  refine ⟨data, found, SortedMap.first?_of_find? ?_ fun j before => ?_⟩
  · rw [find?_erased, if_neg (lt_irrefl _), found]
  · rw [find?_erased, if_pos before]

lemma Gave.sized (gave : c.Gave next data) (sized : Sized c.receivedData) : Sized next.receivedData := by
  have found := sized _ _ gave.found
  intro key other here
  rw [gave.kept] at here
  replace here := (Option.ite_none_left_eq_some.mp here).2
  split at here
  next rest =>
    cases here
    rw [length_drop]
    omega
  next => exact sized key other here

lemma Gave.curPos (gave : c.Gave next data) (left : c.leftToGive ≤ c.toGive) :
    next.curPos = c.curPos + min data.length c.leftToGive := by
  simp only [Cursor.curPos, gave.dataBegSeq, gave.toGive, gave.leftToGive]
  omega

lemma Gave.chain (gave : c.Gave next data) (ok : c.Ok stop) (more : c.leftToGive ≠ 0) :
    Contiguous next.receivedData.find? next.curPos stop := by
  have enough := ok.enough
  obtain ⟨_, found, rest⟩ := ok.chain.first (by omega)
  obtain rfl := Option.some.inj (gave.found.symm.trans found)
  have filled := (ok.sized _ _ found).1
  have behind : Contiguous next.receivedData.find? (c.curPos + data.length) stop :=
    rest.mono fun j other after here => by
      rw [gave.kept, if_neg (by omega), if_neg (by omega), here]
  rw [gave.curPos ok.left]
  by_cases whole : data.length ≤ c.leftToGive
  · rwa [min_eq_left whole]
  rw [min_eq_right (by omega)]
  have here : next.receivedData.find? (c.curPos + c.leftToGive) =
      some (data.drop c.leftToGive) := by
    rw [gave.kept, if_neg (by omega), if_pos ⟨rfl, by omega⟩]
  refine .next here ?_
  rw [length_drop]
  rwa [show c.curPos + c.leftToGive + (data.length - c.leftToGive) =
    c.curPos + data.length by omega]

lemma Gave.ok (ok : c.Ok stop) (more : c.leftToGive ≠ 0) (gave : c.Gave next data)
    (size : next.receivedDataSize = queueCost next.receivedData + (next.toGive - next.leftToGive)) :
    c.Gave next data ∧ next.Ok stop := by
  have left := ok.left
  have enough := ok.enough
  refine ⟨gave, size, gave.sized ok.sized, ?_, gave.chain ok more, ?_⟩
  · rw [gave.leftToGive, gave.toGive]
    omega
  · rw [gave.curPos ok.left, gave.leftToGive]
    omega

lemma give_whole (ok : c.Ok stop) (more : c.leftToGive ≠ 0) (first : c.receivedData.first? = some (c.curPos, data))
    (whole : data.length ≤ c.leftToGive) :
    ∃ next, c.give c.curPos data = .ok next ∧ c.Gave next data ∧ next.Ok stop := by
  have found := SortedMap.find?_first first
  have balance := SortedMap.total_eraseFirst first (fun data => segmentCost data.length)
  have size := ok.size
  have left := ok.left
  simp only [queueCost, segmentCost] at balance size
  have given : min (data.length % 2 ^ 32) c.leftToGive = data.length := by
    rw [Nat.mod_eq_of_lt (ok.sized _ _ found).2]
    exact min_eq_left whole
  have ran : c.give c.curPos data = .ok { c with
      receivedDataSize := c.receivedDataSize - segmentOverhead
      destBuf := c.destBuf ++ data
      receivedData := c.receivedData.eraseFirst
      leftToGive := c.leftToGive - data.length } := by
    have overhead : segmentOverhead ≤ c.receivedDataSize := by omega
    simp only [give, given, ne_eq, not_true_eq_false, if_false, consume, sub_ok overhead,
      take_length]
    rfl
  refine ⟨_, ran, Gave.ok ok more ⟨found, rfl, rfl, rfl, ?_, fun j => ?_⟩ ?_⟩
  · rw [take_of_length_le whole]
  · rw [SortedMap.find?_eraseFirst first]
    split
    next => rfl
    next => rw [if_neg (by omega)]
  · simp only [queueCost, segmentCost] at *
    omega

def oldCost (c : Cursor) (key : Nat) : Nat :=
  (c.receivedData.find? key).elim 0 fun data => segmentCost data.length

lemma oldCost_le (ok : c.Ok stop) (key : Nat) : c.oldCost key ≤ c.receivedDataSize := by
  have size := ok.size
  unfold oldCost
  cases found : c.receivedData.find? key with
  | none => exact Nat.zero_le _
  | some old =>
    have inside := SortedMap.cost_le_total (fun data : List Byte => segmentCost data.length) found
    change segmentCost old.length ≤ _
    simp only [queueCost] at size
    omega

lemma split_eq (ok : c.Ok stop) (key : Nat) (rest : List Byte) :
    c.split key rest = .ok { c with
      receivedData := c.receivedData.insert key rest
      receivedDataSize := c.receivedDataSize - c.oldCost key } := by
  have inside := oldCost_le ok key
  unfold split
  unfold oldCost at inside ⊢
  cases found : c.receivedData.find? key with
  | none => rfl
  | some old =>
    rw [found] at inside
    change segmentCost old.length ≤ c.receivedDataSize at inside
    simp only [sub_ok inside]
    rfl

-- The rest of the first entry replaces whatever was stored at its position.
lemma give_part (ok : c.Ok stop) (more : c.leftToGive ≠ 0) (first : c.receivedData.first? = some (c.curPos, data))
    (part : c.leftToGive < data.length) :
    ∃ next, c.give c.curPos data = .ok next ∧ c.Gave next data ∧ next.Ok stop := by
  have found := SortedMap.find?_first first
  have behind : c.curPos < c.curPos + c.leftToGive := by omega
  have first' := SortedMap.first?_insert first behind (data.drop c.leftToGive)
  have inserted := c.receivedData.total_insert (fun data => segmentCost data.length)
    (c.curPos + c.leftToGive) (data.drop c.leftToGive)
  have balance := SortedMap.total_eraseFirst first' (fun data => segmentCost data.length)
  have old := oldCost_le ok (c.curPos + c.leftToGive)
  have size := ok.size
  have left := ok.left
  have given : min (data.length % 2 ^ 32) c.leftToGive = c.leftToGive := by
    rw [Nat.mod_eq_of_lt (ok.sized _ _ found).2]
    exact min_eq_right part.le
  have ran : c.give c.curPos data = .ok { c with
      receivedDataSize := c.receivedDataSize - c.oldCost (c.curPos + c.leftToGive)
      destBuf := c.destBuf ++ data.take c.leftToGive
      receivedData := (c.receivedData.insert (c.curPos + c.leftToGive)
        (data.drop c.leftToGive)).eraseFirst
      leftToGive := c.leftToGive - c.leftToGive } := by
    simp only [give, given, ne_eq, part.ne', not_false_eq_true, if_true, split_eq ok]
    rfl
  refine ⟨_, ran, Gave.ok ok more ⟨found, rfl, rfl, ?_, rfl, fun j => ?_⟩ ?_⟩
  · dsimp only
    omega
  · rw [SortedMap.find?_eraseFirst first', SortedMap.find?_insert]
    by_cases here : j = c.curPos + c.leftToGive <;> simp [here, part]
  · simp only [queueCost, segmentCost, oldCost, length_drop] at *
    omega

lemma step_gave (ok : c.Ok stop) (more : c.leftToGive ≠ 0) :
    ∃ next data, c.step = .ok next ∧ c.Gave next data ∧ next.Ok stop := by
  obtain ⟨data, found, first⟩ := erased_first ok more
  have given : ∃ next, c.erased.give c.curPos data = .ok next ∧ c.erased.Gave next data ∧
      next.Ok stop := by
    rcases le_or_gt data.length c.leftToGive with whole | part
    · exact give_whole (erased_ok ok) more first whole
    · exact give_part (erased_ok ok) more first part
  obtain ⟨next, ran, gave, okNext⟩ := given
  refine ⟨next, data, ?_, ⟨found, gave.dataBegSeq, gave.toGive, gave.leftToGive, gave.destBuf, ?_⟩,
    okNext⟩
  · simp only [step, eraseStale_eq ok, bind, Except.bind, first]
    exact ran
  intro j
  rw [gave.kept]
  change (if j ≤ c.curPos then _ else if j = c.curPos + c.leftToGive ∧ _ then _ else _) = _
  by_cases before : j ≤ c.curPos
  · simp [before]
  · rw [find?_erased, if_neg (by omega : ¬j < c.curPos)]
    rfl

lemma run_rule {P : Cursor -> Prop}
    (keep : ∀ c next data, c.Ok stop -> c.leftToGive ≠ 0 -> c.Gave next data -> P c -> P next)
    (rounds : Nat) (ok : c.Ok stop) (start : P c) :
    ∃ last, c.run rounds = .ok last ∧ last.Ok stop ∧ P last ∧
      last.leftToGive ≤ c.leftToGive - rounds := by
  induction rounds generalizing c with
  | zero => exact ⟨c, rfl, ok, start, le_rfl⟩
  | succ rounds ih =>
    by_cases more : c.leftToGive = 0
    · exact ⟨c, by simp [run, more], ok, start, by omega⟩
    obtain ⟨next, data, stepped, gave, okNext⟩ := step_gave ok more
    obtain ⟨last, ran, okLast, holds, left⟩ := ih okNext (keep c next data ok more gave start)
    have filled := (ok.sized _ _ gave.found).1
    have given := gave.leftToGive
    refine ⟨last, ?_, okLast, holds, by omega⟩
    rw [run, if_neg more, stepped]
    exact ran

end Cursor

namespace Socket

variable {s : Socket}

lemma cursor_ok (acc : s.Accounted) (len : BitVec 32) :
    (s.cursor len).Ok (s.dataBegSeq + s.dataAvailable) where
  size := by simp [cursor, acc.size]
  sized := acc.sized
  left := le_rfl
  chain := by
    have here : (s.cursor len).curPos = s.dataBegSeq := by simp [Cursor.curPos, cursor]
    rw [here]
    exact acc.chain
  enough := by
    simp only [Cursor.curPos, cursor, toGive]
    omega

def given (s : Socket) (c : Cursor) : Socket :=
  { s with
    dataAvailable := s.dataAvailable - c.toGive
    dataBegSeq := s.dataBegSeq + c.toGive
    receivedData := c.receivedData
    receivedDataSize := c.receivedDataSize - c.toGive }

lemma recvfrom_rule {P : Cursor -> Prop} (acc : s.Accounted) (len : BitVec 32) (dontWait : Bool)
    (some : s.dataAvailable ≠ 0)
    (keep : ∀ c next data, c.Ok (s.dataBegSeq + s.dataAvailable) -> c.leftToGive ≠ 0 ->
      c.Gave next data -> P c -> P next)
    (start : P (s.cursor len)) :
    ∃ last, s.recvfrom len dontWait = .ok (s.given last, .data last.destBuf) ∧ P last ∧
      last.leftToGive = 0 ∧ last.toGive = s.toGive len ∧ last.dataBegSeq = s.dataBegSeq ∧
      (s.given last).Accounted := by
  obtain ⟨last, ran, ok, ⟨holds, toGive, beg⟩, left⟩ :=
    Cursor.run_rule (P := fun c => P c ∧ c.toGive = s.toGive len ∧ c.dataBegSeq = s.dataBegSeq)
      (fun c next data ok more gave ⟨holds, toGive, beg⟩ =>
        ⟨keep c next data ok more gave holds, gave.toGive.trans toGive, gave.dataBegSeq.trans beg⟩)
      (s.toGive len) (cursor_ok acc len) ⟨start, rfl, rfl⟩
  have none : last.leftToGive = 0 := by simpa [cursor] using left
  have size := ok.size
  have chain := ok.chain
  have available : last.toGive ≤ s.dataAvailable := toGive ▸ min_le_left _ _
  have here : last.curPos = s.dataBegSeq + last.toGive := by
    simp [Cursor.curPos, none, beg]
  rw [none] at size
  refine ⟨last, ?_, holds, none, toGive, beg, ?_, ok.sized, ?_⟩
  · unfold recvfrom
    rw [if_neg some, ran]
    have fits : last.toGive ≤ last.receivedDataSize := by omega
    simp only [bind, Except.bind, none, ne_eq, not_true_eq_false, if_false, sub_ok available,
      sub_ok fits]
    rfl
  · simp only [given]
    omega
  rw [here] at chain
  simp only [given]
  rwa [show s.dataBegSeq + last.toGive + (s.dataAvailable - last.toGive) =
    s.dataBegSeq + s.dataAvailable by omega]

end Socket

end EmuCore.Net.P2ps
