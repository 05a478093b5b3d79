import EmuCore.Lib.Parking
import EmuCore.Lv2.Mutex

namespace EmuCore.Lv2.Mutex

open Parking LinkedList

def Owned (owner : Nat) (holders : List ThreadId) : Prop :=
  (owner = 0 ∧ holders = []) ∨ ∃ t : ThreadId, owner = t.id ∧ holders = [t]

variable {holders : List ThreadId} {t : ThreadId} {owner : Nat}

lemma Owned.holder (owned : Owned owner holders) (member : t ∈ holders) : owner = t.id ∧ holders = [t] := by
  rcases owned with ⟨_, none⟩ | ⟨u, named, one⟩
  · simp [none] at member
  · obtain rfl : t = u := by simpa [one] using member
    exact ⟨named, one⟩

lemma Owned.none (owned : Owned owner holders) (zero : owner = 0) : holders = [] := by
  rcases owned with ⟨_, empty⟩ | ⟨u, named, _⟩
  · exact empty
  · have pos := u.pos
    omega

lemma Owned.self (owned : Owned owner holders) (named : owner = t.id) : t ∈ holders := by
  rcases owned with ⟨zero, _⟩ | ⟨u, same, one⟩
  · have pos := t.pos
    omega
  · rw [one, ThreadId.ext_id (named.symm.trans same)]
    exact List.mem_singleton.mpr rfl

lemma Owned.one (t : ThreadId) : Owned t.id [t] := .inr ⟨t, rfl, rfl⟩

def Place.waits : Place -> Bool
  | .lockWait | .lockSync | .lockTimeout => true
  | _ => false

def Place.Ok (t : ThreadId) (next : ThreadId -> Option ThreadId) (queue holders : List ThreadId) :
    Place -> Prop
  | .lockCas it | .trylockCas it => it.owner = 0
  | .ownCas old => old.owner ≠ 0 -> next t = old.sq
  | .lockSync => t ∉ queue
  | .unlockCas it => it.owner = t.id ∧ it.sq = none ∧ t ∈ holders
  | .unlockLock => t ∈ holders
  | _ => True

def Section.waits : Section -> Bool
  | .timeoutLoad | .timeoutRun .. | .timeoutCas .. => true
  | _ => false

def Section.hand : Section -> List ThreadId
  | .reownStore _ res _ | .reownDetach res => [res]
  | _ => []

def Seen (next : ThreadId -> Option ThreadId) (queue : List ThreadId) (old : Control)
    (seen : List ThreadId) : Prop := Chain next old.sq seen ∧ seen <:+ queue

def Section.Ok (cfg : Config) (next : ThreadId -> Option ThreadId) (queue holders : List ThreadId)
    (t : ThreadId) : Section -> Prop
  | .reownLoad => t ∈ holders
  | .reownRun old seen => t ∈ holders ∧ Seen next queue old seen
  | .reownFree old _ => t ∈ holders ∧ old.sq = none
  | .reownCas old new seen res prio => t ∈ holders ∧ Seen next queue old seen ∧
      seen.head? = some res ∧ new = ⟨res.id, next res⟩ ∧ Prescribed cfg.protocol prio seen res
  | .reownStore seen res prio => t ∈ holders ∧ Prescribed cfg.protocol prio seen res
  | .timeoutRun old seen => Seen next queue old seen ∧ (t ∈ queue -> t ∈ seen)
  | .timeoutCas old new seen => Seen next queue old seen ∧ seen.head? = some t ∧
      new = { old with sq := next t }
  | .reownDetach res => res ∈ holders
  | .timeoutLoad | .timeoutDone => True

namespace State

def hand (s : State) : List ThreadId := (s.mutex.map fun held => held.2.hand).getD []

end State

structure Inv (cfg : Config) (s : State) : Prop where
  own : Owned s.control.owner s.holders
  free : s.control.owner = 0 -> s.queue = []
  chain : Chain s.next s.control.sq s.queue
  places : ∀ u, (s.place u).Ok u s.next s.queue s.holders
  held : ∀ t sec, s.mutex = some (t, sec) ->
    (s.place t).waits = sec.waits ∧ sec.Ok cfg s.next s.queue s.holders t
  tracks : Tracks (fun u => (s.place u).waits = true) s.queue s.hand s.woken
  owners : ∀ u ∈ s.woken, u ∈ s.holders
  grants : ∀ g ∈ s.grants, Prescribed cfg.protocol g.prio g.seen g.thread
  sound : s.failed = false

lemma start_inv (cfg : Config) : Inv cfg start where
  own := .inl ⟨rfl, rfl⟩
  free := fun _ => rfl
  chain := rfl
  places := fun _ => trivial
  held := fun _ _ taken => by cases taken
  tracks := ⟨by simp [start, State.hand], by simp [start, State.hand, Place.waits]⟩
  owners := by simp [start]
  grants := by simp [start]
  sound := rfl

variable {next next' : ThreadId -> Option ThreadId} {queue queue' holders' : List ThreadId}

lemma Place.Ok.frame {p : Place} {u : ThreadId} (ok : p.Ok u next queue holders)
    (link : p.waits = false -> next' u = next u) (left : u ∈ queue' -> u ∈ queue) (kept : u ∈ holders -> u ∈ holders') :
    p.Ok u next' queue' holders' := by
  cases p
  case lockSync => exact fun member => ok (left member)
  all_goals simp_all [Place.Ok, Place.waits]

lemma places_update {place : ThreadId -> Place} {p : Place} (ok : ∀ u, (place u).Ok u next queue holders)
    (here : p.Ok t next' queue' holders') (link : ∀ u, u ≠ t -> (place u).waits = false -> next' u = next u)
    (left : ∀ u, u ≠ t -> u ∈ queue' -> u ∈ queue) (kept : ∀ u, u ≠ t -> u ∈ holders -> u ∈ holders') (u : ThreadId) :
    (Function.update place t p u).Ok u next' queue' holders' := by
  by_cases same : u = t
  · subst same
    simpa using here
  · simpa [same] using (ok u).frame (link u same) (left u same) (kept u same)

-- What another thread can do while a section runs: push, write its own link, take the free mutex.
lemma Section.Ok.frame {cfg : Config} {sec : Section} (ok : sec.Ok cfg next queue holders t)
    (chains : ∀ first list, list <:+ queue -> Chain next first list -> Chain next' first list)
    (links : ∀ u ∈ queue, next' u = next u) (grown : queue <:+ queue') (left : t ∈ queue' -> t ∈ queue)
    (kept : t ∈ holders -> t ∈ holders') (given : ∀ res ∈ sec.hand, res ∈ holders -> res ∈ holders') :
    sec.Ok cfg next' queue' holders' t := by
  have seen_frame : ∀ old seen, Seen next queue old seen -> Seen next' queue' old seen :=
    fun old seen before => ⟨chains _ _ before.2 before.1, before.2.trans grown⟩
  have head_link : ∀ old seen u, Seen next queue old seen -> seen.head? = some u -> next' u = next u :=
    fun old seen u before first => links u (before.2.subset (List.mem_of_head? first))
  cases sec with
  | reownLoad => exact kept ok
  | reownRun old seen => exact ⟨kept ok.1, seen_frame _ _ ok.2⟩
  | reownFree old seen | reownStore seen res prio => exact ⟨kept ok.1, ok.2⟩
  | reownCas old new seen res prio =>
    obtain ⟨owns, before, first, value, choice⟩ := ok
    exact ⟨kept owns, seen_frame _ _ before, first,
      by rw [value, head_link _ _ _ before first], choice⟩
  | reownDetach res => exact given res (List.mem_singleton.mpr rfl) ok
  | timeoutLoad => trivial
  | timeoutRun old seen => exact ⟨seen_frame _ _ ok.1, fun member => ok.2 (left member)⟩
  | timeoutCas old new seen =>
    obtain ⟨before, first, value⟩ := ok
    exact ⟨seen_frame _ _ before, first, by rw [value, head_link _ _ _ before first]⟩
  | timeoutDone => trivial

end EmuCore.Lv2.Mutex
