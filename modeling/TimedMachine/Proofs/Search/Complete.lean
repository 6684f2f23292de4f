import TimedMachine.Proofs.Search.Coherent
import TimedMachine.Proofs.Search.Sound

/-!
# What a complete search knows

A search misses nothing and makes nothing up. So what a complete search has settled, entered, noted
and reported is exactly what the runs come to.
-/

namespace TimedMachine

namespace Search

variable {S T E : Nat} (p : Plan S T E)

/-- Nothing is left on the stack of a complete search, so what it has seen is settled. -/
theorem mem_settled_of_hasSeen {c : Configuration S T E} (h : (complete p).hasSeen c = true) :
    c ∈ (complete p).settled := by
  obtain ⟨hcoherent, hstack⟩ := Coherent.complete p
  refine (hasSeen_iff.mp h).resolve_left fun hc => ?_
  simpa [hstack] using (hcoherent.stacked.mem_onStack c).mp hc

/-- A complete search has entered each state that a run enters, and settled the configuration that
the run ends in. -/
theorem complete_of_run {trail : Trail (Fin S)} {c? : Option (Configuration S T E)}
    (h : p.Run trail c?) :
    trail.last ∈ (complete p).entered ∧ ∀ c, c? = some c → c ∈ (complete p).settled := by
  have hcoherent := (Coherent.complete p).1
  induction h with
  | start hs =>
    have htried := tried_start hs
    exact ⟨htried.entered, fun d hd => mem_settled_of_hasSeen p (htried.seen d hd)⟩
  | @step trail c mv _ hmv ih =>
    have htried := hcoherent.settled c (ih.2 c rfl) mv hmv
    exact ⟨htried.entered, fun d hd => mem_settled_of_hasSeen p (htried.seen d hd)⟩

theorem mem_settled_complete {c : Configuration S T E} :
    c ∈ (complete p).settled ↔ p.Reachable c := by
  constructor
  · exact (Sound.complete p).settled c
  · rintro ⟨trail, hrun⟩
    exact (complete_of_run p hrun).2 c rfl

theorem mem_entered_complete {s : Fin S} : s ∈ (complete p).entered ↔ p.Enters s := by
  constructor
  · exact (Sound.complete p).entered s
  · rintro ⟨trail, c?, hrun, rfl⟩
    exact (complete_of_run p hrun).1

/-- A complete search has noted what there is to say about every configuration that a run comes
to. -/
theorem noted_of_reachable {c : Configuration S T E} (h : p.Reachable c) :
    Noted p (complete p) c :=
  (Coherent.complete p).1.noted c (hasSeen_iff.mpr (.inr ((mem_settled_complete p).mpr h)))

theorem mem_enabledIn_complete {s : Fin S} {e : Fin E} :
    e ∈ (complete p).enabledIn.get s ↔ ∃ c, p.Reachable c ∧ c.state = s ∧ e ∈ p.enabled c := by
  constructor
  · exact (Sound.complete p).enabledIn s e
  · rintro ⟨c, hc, rfl, he⟩
    exact (noted_of_reachable p hc).enabled e he

theorem mem_runningIn_complete {s : Fin S} {t : Fin T} :
    t ∈ (complete p).runningIn.get s ↔ ∃ c, p.Reachable c ∧ c.state = s ∧ t ∈ c.running := by
  constructor
  · exact (Sound.complete p).runningIn s t
  · rintro ⟨c, hc, rfl, ht⟩
    exact (noted_of_reachable p hc).running t ht

theorem mem_found_complete {pr : Problem S T E} :
    pr ∈ (complete p).found.map Prod.fst ↔ ∃ c, p.Reachable c ∧ pr ∈ p.problems c := by
  have hsound := Sound.complete p
  constructor
  · intro h
    obtain ⟨⟨_, trail⟩, hfound, rfl⟩ := List.mem_map.mp h
    obtain ⟨c, hrun, hpr⟩ := hsound.found _ trail hfound
    exact ⟨c, ⟨trail, hrun⟩, hpr⟩
  · rintro ⟨c, hc, hpr⟩
    exact (hsound.mem_reported pr).mp ((noted_of_reachable p hc).reported pr hpr)

end Search

end TimedMachine
