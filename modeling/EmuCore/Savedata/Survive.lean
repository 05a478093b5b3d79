import EmuCore.Savedata.Resume

namespace EmuCore.Savedata

open EmuCore.Util CrashHoare List

/- Saves and starts of the emulator, each possibly cut off. After a cut or an exception nothing is saved before the
next fix-up has run to its end. -/

structure State where
  disk : Disk
  ready : Bool
  -- The files of the save directory when the last save began (once it has returned, its own), and those of that save.
  previous : Bytes -> Option Node
  latest : Bytes -> Option Node
  failures : List Site

inductive Event
  | save (request : Request) (schedule : List Bool)
  | start (schedule : List Bool)

def step (s : State) : Event -> State
  | .save request schedule =>
    if s.ready then
      let outcome := savedataOp request schedule s.disk
      let returned := decide (outcome.value = some .returned)
      { disk := outcome.state
        ready := returned
        previous := if returned then complete request else files (s.disk .save)
        latest := complete request
        failures := s.failures ++ outcome.failed }
    else s
  | .start schedule =>
    let outcome := fixup schedule s.disk
    { s with disk := outcome.state, ready := outcome.value.isSome, failures := s.failures ++ outcome.failed }

def initial (disk : Disk) : State := ⟨disk, true, files (disk .save), files (disk .save), []⟩

def run (disk : Disk) (events : List Event) : State := events.foldl step (initial disk)

def Intact (s : State) : Prop :=
  s.ready = true -> files (s.disk .save) = s.previous ∨ files (s.disk .save) = s.latest

structure Sound (s : State) : Prop where
  resumable : Resumable s.previous s.latest s.disk
  gone : s.ready = true -> s.disk .backup = none
  intact : Intact s

lemma sound_initial {disk : Disk} (gone : disk .backup = none) : Sound (initial disk) where
  resumable := .settled gone (.inl rfl)
  gone := fun _ => gone
  intact := fun _ => .inl rfl

lemma failures_step (s : State) (event : Event) : s.failures ⊆ (step s event).failures := by
  cases event with
  | save request schedule =>
    rw [step]
    split
    · exact subset_append_left ..
    · exact List.Subset.refl _
  | start schedule => exact subset_append_left ..

lemma failures_run (s : State) (events : List Event) : s.failures ⊆ (events.foldl step s).failures := by
  induction events generalizing s with
  | nil => exact List.Subset.refl _
  | cons event events ih => exact List.Subset.trans (failures_step s event) (ih (step s event))

section Reliable

variable {allowed : Site -> Prop} {s : State}

lemma Sound.save (sound : Sound s) (clears : ¬allowed .clear) (finishes : ¬allowed .finish) (request : Request)
    (schedule : List Bool) (within : ∀ site ∈ (step s (.save request schedule)).failures, allowed site) :
    Sound (step s (.save request schedule)) := by
  rw [step] at within ⊢
  split at within
  next ready =>
    rw [if_pos ready]
    have failed := fun site member => within site (mem_append_right _ member)
    have met := savedataOp_triple clears finishes request schedule s.disk ⟨sound.gone ready, rfl, trivial⟩ failed
    rw [Outcome.Meets] at met
    generalize savedataOp request schedule s.disk = outcome at met ⊢
    cases ended : outcome.value with
    | none =>
      rw [ended] at met
      exact ⟨by simpa [ended] using met, by simp [ended], by simp [Intact, ended]⟩
    | some result =>
      rw [ended] at met
      cases result with
      | thrown => exact ⟨by simpa [ended] using met.1, by simp [ended], by simp [Intact, ended]⟩
      | returned =>
        have settled := met.2 rfl
        exact ⟨by simpa [ended] using settled.resumable, fun _ => settled.gone, fun _ => .inr settled.new⟩
  next busy =>
    rw [if_neg busy]
    exact sound

lemma Sound.start (sound : Sound s) (recovers : ¬allowed .recover) (schedule : List Bool)
    (within : ∀ site ∈ (step s (.start schedule)).failures, allowed site) : Sound (step s (.start schedule)) := by
  rw [step] at within ⊢
  have failed := fun site member => within site (mem_append_right _ member)
  have met := fixup_triple recovers schedule s.disk sound.resumable failed
  rw [Outcome.Meets] at met
  generalize fixup schedule s.disk = outcome at met ⊢
  cases ended : outcome.value with
  | none =>
    rw [ended] at met
    exact ⟨met, by simp, by simp [Intact]⟩
  | some _ =>
    rw [ended] at met
    exact ⟨.settled met.1 met.2, fun _ => met.1, fun _ => met.2⟩

lemma Sound.run (sound : Sound s) (clears : ¬allowed .clear) (finishes : ¬allowed .finish)
    (recovers : ¬allowed .recover) (events : List Event)
    (within : ∀ site ∈ (events.foldl step s).failures, allowed site) : Sound (events.foldl step s) := by
  induction events generalizing s with
  | nil => exact sound
  | cons event events ih =>
    have early := fun site member => within site (failures_run (step s event) events member)
    refine ih ?_ within
    cases event with
    | save request schedule => exact sound.save clears finishes request schedule early
    | start schedule => exact sound.start recovers schedule early

end Reliable

def loses (s : State) (name : Bytes) : Bool :=
  s.ready && (files (s.disk .save) name).isSome != (s.previous name).isSome &&
    (files (s.disk .save) name).isSome != (s.latest name).isSome

lemma not_intact_of_loses {s : State} {name : Bytes} (lost : loses s name = true) : ¬Intact s := by
  intro intact
  rw [loses, Bool.and_eq_true, Bool.and_eq_true, bne_iff_ne, bne_iff_ne] at lost
  rcases intact lost.1.1 with same | same
  · exact lost.1.2 (by rw [same])
  · exact lost.2 (by rw [same])

def exampleDisk : Disk
  | .save => some [(paramSfo, .file [0])]
  | _ => none

def sfoOnly : Request := ⟨false, ∅, [1]⟩

def withA : Request := ⟨false, SortedMap.insert ∅ [0x41] [7], [2]⟩

def works (n : Nat) : List Bool := List.replicate n true

-- A save that is cut off leaves "A" in the working directory, where the next save cannot remove it.
def staleRun : List Event := [.save withA (works 3), .start [], .save sfoOnly (true :: false :: works 6)]

-- The backup is not removed after a save. The next save is cut off when its working directory is still empty.
def leftRun : List Event := [.save sfoOnly (works 5 ++ [false]), .save withA (works 1), .start (works 6)]

-- The same after a fix-up that could not remove the backup.
def refixedRun : List Event := [.save sfoOnly (works 5), .start [false], .save withA (works 1), .start (works 6)]

lemma losing_runs :
    (loses (run exampleDisk staleRun) [0x41] = true ∧ (run exampleDisk staleRun).failures = [.clear]) ∧
    (loses (run exampleDisk leftRun) paramSfo = true ∧ (run exampleDisk leftRun).failures = [.finish]) ∧
    (loses (run exampleDisk refixedRun) paramSfo = true ∧ (run exampleDisk refixedRun).failures = [.recover]) := by
  decide +kernel

-- Saves survive, whatever else fails, exactly if no removal fails in the working directory before it is written, or in
-- the backup after a save or in the fix-up.
theorem saves_survive_iff (allowed : Site -> Prop) :
    (∀ disk events, disk .backup = none -> (∀ site ∈ (run disk events).failures, allowed site) ->
        Intact (run disk events)) ↔
      ¬allowed .clear ∧ ¬allowed .finish ∧ ¬allowed .recover := by
  constructor
  · intro survive
    have safe (events : List Event) (name : Bytes) (site : Site) (lost : loses (run exampleDisk events) name = true ∧
        (run exampleDisk events).failures = [site]) : ¬allowed site := by
      intro may
      refine not_intact_of_loses lost.1 (survive exampleDisk events rfl ?_)
      rw [lost.2]
      exact fun other member => mem_singleton.mp member ▸ may
    exact ⟨safe _ _ _ losing_runs.1, safe _ _ _ losing_runs.2.1, safe _ _ _ losing_runs.2.2⟩
  · rintro ⟨clears, finishes, recovers⟩ disk events gone within
    exact ((sound_initial gone).run clears finishes recovers events within).intact

-- One removal fails, then one save is cut off.
theorem save_lost : (run exampleDisk leftRun).failures = [.finish] ∧ ¬Intact (run exampleDisk leftRun) :=
  ⟨losing_runs.2.1.2, not_intact_of_loses losing_runs.2.1.1⟩

end EmuCore.Savedata
