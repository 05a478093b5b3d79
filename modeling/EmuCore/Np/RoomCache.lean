import EmuCore.Lib.SortedMap

namespace EmuCore.Np

open List Function

structure MemberCache where
  joinDate : Nat

abbrev Members := SortedMap Nat MemberCache

abbrev Rooms := Nat -> Option Members

inductive Event
  | insertRoom (room : Nat) (members : List (Nat × MemberCache))
  | addMember (room member : Nat) (data : MemberCache)
  | delMember (room member : Nat)

def roomMembers (members : List (Nat × MemberCache)) : Members :=
  members.foldl (fun map member => map.insert member.1 member.2) ∅

def Rooms.step (rooms : Rooms) : Event -> Rooms
  | .insertRoom room members => update rooms room (some (roomMembers members))
  | .addMember room member data =>
    if (rooms room).isSome then update rooms room ((rooms room).map (·.insert member data)) else rooms
  -- rooms.erase(member_id), not rooms[room_id].members.erase(member_id)
  | .delMember room member => if (rooms room).isSome then update rooms member none else rooms

def run (events : List Event) : Rooms := events.foldl Rooms.step fun _ => none

inductive SortMethod
  | slotNumber
  | joinDate

-- std::map::insert keeps the member that came first.
def byJoinDate (dates : SortedMap Nat Nat) : List (Nat × MemberCache) -> SortedMap Nat Nat
  | [] => dates
  | member :: rest =>
    byJoinDate (if (dates.find? member.2.joinDate).isSome then dates else dates.insert member.2.joinDate member.1) rest

def memberids (members : Members) : SortMethod -> List Nat
  | .slotNumber => members.entries.map Prod.fst
  | .joinDate => (byJoinDate ∅ members.entries).entries.map Prod.snd

def getMemberids (rooms : Rooms) (room : Nat) (method : SortMethod) : Option (List Nat) :=
  (rooms room).map (memberids · method)

def Event.room : Event -> Nat
  | .insertRoom room _ | .addMember room _ _ | .delMember room _ => room

def Event.apply (before : Option Members) : Event -> Option Members
  | .insertRoom _ members => some (roomMembers members)
  | .addMember _ member data => before.map (·.insert member data)
  | .delMember _ member => before.map (·.erase member)

def replay (room : Nat) (events : List Event) : Option Members :=
  (events.filter (·.room = room)).foldl Event.apply none

def Lists (events : List Event) : Prop :=
  ∀ room method, (getMemberids (run events) room method).map Multiset.ofList =
    (replay room events).map fun members => Multiset.ofList (members.entries.map Prod.fst)

def Isolated (before : List Event) (event : Event) : Prop :=
  ∀ room, room ≠ event.room -> run (before ++ [event]) room = run before room

-- A deletion names nobody, neither a member nor a room.
def Harmless (before : List Event) : Event -> Prop
  | .delMember room member => ∀ members ∈ replay room before, members.find? member = none ∧ replay member before = none
  | _ => True

def Dated (events : List Event) : Prop :=
  ∀ room, ∀ members ∈ replay room events, (members.entries.map (·.2.joinDate)).Nodup

lemma length_byJoinDate (dates : SortedMap Nat Nat) (l : List (Nat × MemberCache)) :
    (byJoinDate dates l).entries.length ≤ dates.entries.length + l.length := by
  induction l generalizing dates with
  | nil => exact le_rfl
  | cons member rest ih =>
    rw [byJoinDate, length_cons]
    split
    next => exact (ih dates).trans (by omega)
    next new =>
      have := ih (dates.insert member.2.joinDate member.1)
      rw [(dates.insert_perm member.1 (Option.not_isSome_iff_eq_none.mp new)).length_eq, length_cons] at this
      omega

lemma byJoinDate_perm (dates : SortedMap Nat Nat) (l : List (Nat × MemberCache)) :
    (byJoinDate dates l).entries.map Prod.snd ~ dates.entries.map Prod.snd ++ l.map Prod.fst ↔
      (l.map (·.2.joinDate)).Nodup ∧ ∀ member ∈ l, dates.find? member.2.joinDate = none := by
  induction l generalizing dates with
  | nil => simp [byJoinDate]
  | cons member rest ih =>
    rw [byJoinDate, forall_mem_cons]
    split
    next old =>
      refine iff_of_false (fun listed => ?_) fun both => by simp [both.2.1] at old
      have := length_byJoinDate dates rest
      have := listed.length_eq
      simp at this
      omega
    next new =>
      have absent := Option.not_isSome_iff_eq_none.mp new
      have moved : (dates.insert member.2.joinDate member.1).entries.map Prod.snd ++ rest.map Prod.fst ~
          dates.entries.map Prod.snd ++ (member :: rest).map Prod.fst :=
        (((dates.insert_perm member.1 absent).map Prod.snd).append_right _).trans perm_middle.symm
      refine (moved.congr_right _).symm.trans ((ih _).trans ?_)
      simp only [map_cons, nodup_cons, mem_map, not_exists, not_and, absent, true_and, SortedMap.find?_insert]
      constructor
      · rintro ⟨distinct, others⟩
        have apart (other) (present : other ∈ rest) : other.2.joinDate ≠ member.2.joinDate := fun same => by
          simpa [same] using others other present
        exact ⟨⟨apart, distinct⟩, fun other present => (if_neg (apart other present)).symm.trans (others other present)⟩
      · rintro ⟨⟨apart, distinct⟩, others⟩
        exact ⟨distinct, fun other present => (if_neg (apart other present)).trans (others other present)⟩

lemma joinDate_exact (members : Members) : memberids members .joinDate ~ memberids members .slotNumber ↔
    (members.entries.map (·.2.joinDate)).Nodup :=
  (byJoinDate_perm ∅ members.entries).trans (and_iff_left fun _ _ => rfl)

variable {events : List Event} {event : Event}

def Synced (events : List Event) : Prop := ∀ room, run events room = replay room events

lemma replay_append (events : List Event) (event : Event) (room : Nat) : replay room (events ++ [event]) =
    update (replay · events) event.room (event.apply (replay event.room events)) room := by
  rw [replay, filter_append, foldl_append, update_apply]
  by_cases here : event.room = room
  · simp [here, replay]
  · simp [here, Ne.symm here, replay]

lemma run_append (events : List Event) (event : Event) : run (events ++ [event]) = (run events).step event :=
  foldl_append ..

lemma Synced.append (synced : Synced events) (harmless : Harmless events event) : Synced (events ++ [event]) := by
  intro room
  rw [replay_append, ← synced, ← funext synced, run_append]
  refine congrFun ?_ room
  cases event with
  | insertRoom into members => rfl
  | addMember into member data =>
    rw [Rooms.step]
    split
    next => rfl
    next none =>
      have none := Option.not_isSome_iff_eq_none.mp none
      exact (update_eq_self_iff.mpr (by simp [Event.apply, Event.room, none])).symm
  | delMember into member =>
    rw [Rooms.step]
    split
    next some =>
      obtain ⟨members, found⟩ := Option.isSome_iff_exists.mp some
      obtain ⟨absent, uncached⟩ := harmless members (synced into ▸ found)
      refine (update_eq_self_iff.mpr ((synced member).trans uncached).symm).trans (update_eq_self_iff.mpr ?_).symm
      simp [Event.apply, Event.room, found, members.erase_absent absent]
    next none =>
      have none := Option.not_isSome_iff_eq_none.mp none
      exact (update_eq_self_iff.mpr (by simp [Event.apply, Event.room, none])).symm

lemma Synced.lists_iff (synced : Synced events) : Lists events ↔ Dated events := by
  constructor
  · intro lists room members present
    have listed := lists room .joinDate
    rw [getMemberids, synced, present] at listed
    exact (joinDate_exact members).mp (Multiset.coe_eq_coe.mp (Option.some.inj listed))
  · intro dated room method
    rw [getMemberids, synced]
    cases found : replay room events with
    | none => rfl
    | some members =>
      cases method with
      | slotNumber => rfl
      | joinDate =>
        exact congrArg some (Multiset.coe_eq_coe.mpr ((joinDate_exact members).mpr (dated room members found)))

lemma Synced.harmless (synced : Synced events) (lists : Lists (events ++ [event])) : Harmless events event := by
  cases event with
  | insertRoom | addMember => trivial
  | delMember into member =>
    intro members found
    have erased : run (events ++ [.delMember into member]) = update (run events) member none := by
      rw [run_append, Rooms.step, synced, found]
      rfl
    have gone := lists member .slotNumber
    have left := lists into .slotNumber
    rw [getMemberids, erased, replay_append] at gone left
    dsimp only [Event.room] at gone left
    have own : Event.apply (replay into events) (.delMember into member) = some (members.erase member) :=
      congrArg (Option.map _) found
    by_cases here : member = into
    · subst here
      simp [own] at left
    · rw [update_self, update_of_ne here] at gone
      rw [update_of_ne (Ne.symm here), update_self, own, synced, found] at left
      have same := Multiset.coe_eq_coe.mp (Option.some.inj left)
      refine ⟨?_, Option.map_eq_none_iff.mp gone.symm⟩
      cases known : members.find? member with
      | none => rfl
      | some data =>
        have kept := same.mem_iff.mp (mem_map_of_mem (SortedMap.find?_eq_some.mp known))
        simp [SortedMap.erase] at kept

theorem room_cache_exact_iff (events : List Event) :
    (∀ before, before <+: events -> Lists before) ∧
        (∀ before event, before ++ [event] <+: events -> Isolated before event) ↔
      (∀ before event, before ++ [event] <+: events -> Harmless before event) ∧
        ∀ before, before <+: events -> Dated before := by
  have synced (keeps : ∀ before event, Synced before -> before ++ [event] <+: events -> Harmless before event) :
      ∀ before, before <+: events -> Synced before := by
    intro before
    induction before using List.reverseRecOn with
    | nil => exact fun _ _ => rfl
    | append_singleton before event ih =>
      intro part
      have earlier := ih (( prefix_append before [event]).trans part)
      exact earlier.append (keeps before event earlier part)
  constructor
  · rintro ⟨lists, -⟩
    have sync := synced fun before event synced part => synced.harmless (lists _ part)
    exact ⟨fun before event part => (sync before (( prefix_append ..).trans part)).harmless (lists _ part),
      fun before part => (sync before part).lists_iff.mp (lists before part)⟩
  · rintro ⟨harmless, dated⟩
    have sync := synced fun before event _ part => harmless before event part
    refine ⟨fun before part => (sync before part).lists_iff.mpr (dated before part), fun before event part room other => ?_⟩
    rw [sync _ part, sync before (( prefix_append ..).trans part), replay_append, update_of_ne other]

theorem room_cache_keeps_member :
    (getMemberids (run [.insertRoom 1 [(2, ⟨0⟩)], .delMember 1 2]) 1 .slotNumber = some [2] ∧
      (replay 1 [.insertRoom 1 [(2, ⟨0⟩)], .delMember 1 2]).map (memberids · .slotNumber) = some []) ∧
    getMemberids (run [.insertRoom 1 [(2, ⟨0⟩)], .insertRoom 2 [], .delMember 1 2]) 2 .slotNumber = none ∧
    getMemberids (run [.insertRoom 1 [(2, ⟨0⟩), (3, ⟨0⟩)]]) 1 .joinDate = some [2] := by
  decide

end EmuCore.Np
