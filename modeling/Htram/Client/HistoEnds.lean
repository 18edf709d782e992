import Htram.Client.Histo
import Htram.System.Load
import Mathlib.Tactic.Ring

/-!
# The histogram ends

Every event but a flush by the clock uses up some of the work that is left, and until the check has
run there is an event that can take place.

* `Histo.step_rest`: what an event costs.
* `Histo.enabled`: no run is stuck.
* `Histo.run_ends`: every run has a bounded number of events, and one that cannot go on has run the
  check.
-/

namespace Htram.Histo

open Network

variable {F : Type*}

/-- A flush by the clock costs nothing. -/
def Event.cost : Event → ℕ
  | .periodicTflush _ => 0
  | _ => 1

/-- The events that an updater has still to make. -/
def Updater.rest (cfg : Config ℕ) (p : Setup) (u : Updater) : ℕ :=
  (p.lNumUps - u.next) * (SortedSystem.price cfg + 1) + (if u.flushed then 0 else 1) +
    2 * (p.lNumUps - u.verified)

/-- The phases that are left. -/
def Phase.rest : Phase → ℕ
  | .updates => 2
  | .verification => 1
  | .checked => 0

/-- The work that is left. -/
def rest (cfg : Config ℕ) (p : Setup) (s : Histo F) : ℕ :=
  s.updaters.total cfg.numPes (Updater.rest cfg p) (fun _ => 1) + s.tram.load cfg + s.phase.rest

/-- What a run can use up. -/
def Setup.bound (cfg : Config ℕ) (p : Setup) : ℕ :=
  cfg.numPes * (p.lNumUps * (cfg.nodeSize + 5) + 1) + 2

variable [ReleaseArith F] {cfg : Config ℕ} {p : Setup} {bufSize : ℕ} {es : List (SortedEvent ℕ F)}
  {s t : Histo F}

/-! ## What an event costs -/

omit [ReleaseArith F] in
theorem received_rest (us : Net Updater (ℕ × ℕ)) (m : SortedPacket ℕ) :
    (received us m).total cfg.numPes (Updater.rest cfg p) (fun _ => 1) =
      us.total cfg.numPes (Updater.rest cfg p) (fun _ => 1) := by
  have hflight : (received us m).flight = us.flight := by
    cases m
    all_goals rfl
  have hsame := fun q => (us.node q).insertDataArrCaller_same
    (((SortedSystem.handedBy m).filter fun x => x.1 = q).map Prod.snd)
  unfold Net.total Updater.rest
  rw [hflight]
  simp only [received_node, hsame]

/-- An iteration of `generateUpdates` leaves less to do, by more than an item is worth. -/
theorem Updater.rest_next {u : Updater} (hnext : u.next < p.lNumUps) :
    Updater.rest cfg p { u with next := u.next + 1 } + (SortedSystem.price cfg + 1) =
      u.rest cfg p := by
  obtain ⟨n, hn⟩ := Nat.exists_eq_add_of_lt hnext
  unfold Updater.rest
  dsimp only
  rw [hn, show u.next + n + 1 - (u.next + 1) = n by omega,
    show u.next + n + 1 - u.next = n + 1 by omega, Nat.add_mul n 1, Nat.one_mul]
  omega

theorem Updater.rest_flushed (cfg : Config ℕ) (p : Setup) {u : Updater}
    (hflushed : u.flushed = false) :
    Updater.rest cfg p { u with flushed := true } + 1 = u.rest cfg p := by
  unfold Updater.rest
  rw [hflushed, if_pos rfl, if_neg Bool.false_ne_true]
  dsimp only
  omega

theorem Updater.rest_verified {u : Updater} (hmore : u.verified < p.lNumUps) :
    Updater.rest cfg p { u with verified := u.verified + 1 } + 2 = u.rest cfg p := by
  unfold Updater.rest
  dsimp only
  omega

omit [ReleaseArith F] in
/-- What an updater does, all updaters have done. -/
theorem set_rest {us : Net Updater (ℕ × ℕ)} {pe k : ℕ} (hpe : pe < cfg.numPes) {u : Updater}
    (hu : u.rest cfg p + k = (us.node pe).rest cfg p) :
    (us.set pe u).total cfg.numPes (Updater.rest cfg p) (fun _ => 1) + k =
      us.total cfg.numPes (Updater.rest cfg p) (fun _ => 1) := by
  have htotal := Net.total_set (s := us) (w := Updater.rest cfg p) (v := fun _ => 1) hpe u
  omega

theorem step_rest (hs : Traced cfg p bufSize es s) {e : Event} (hstep : step cfg p s e = some t) :
    rest cfg p t + e.cost ≤ rest cfg p s := by
  cases e with
  | generateUpdates pe =>
    simp only [step] at hstep
    split_ifs at hstep with hrunning hnext
    · obtain ⟨tram, htram, rfl⟩ := Option.map_eq_some_iff.mp hstep
      have hpe := SortedSystem.call_inside htram
      have hload := SortedSystem.insertValue_load hs.sound
        (Client.pe_lt (Nat.zero_lt_of_lt hpe) _) htram
      have htotal := set_rest hpe (Updater.rest_next hnext)
      unfold rest Event.cost
      dsimp only
      omega
    · obtain ⟨tram, htram, rfl⟩ := Option.map_eq_some_iff.mp hstep
      have hpe := SortedSystem.call_inside htram
      have hload := SortedSystem.tflush_load hs.sound htram
      have htotal := set_rest hpe (Updater.rest_flushed cfg p hrunning.2)
      unfold rest Event.cost
      dsimp only
      omega
  | periodicTflush pe =>
    obtain ⟨tram, htram, rfl⟩ := Option.map_eq_some_iff.mp hstep
    have hload := SortedSystem.tflush_load hs.sound htram
    unfold rest Event.cost
    dsimp only
    omega
  | deliver k =>
    obtain ⟨m, hk, hstep⟩ := Option.bind_eq_some_iff.mp hstep
    obtain ⟨tram, htram, rfl⟩ := Option.map_eq_some_iff.mp hstep
    have hload := SortedSystem.deliver_load hs.sound htram
    unfold rest Event.cost
    dsimp only
    rw [received_rest]
    omega
  | generateUpdatesVerify pe =>
    simp only [step] at hstep
    split_ifs at hstep with h
    cases hstep
    have htotal := set_rest h.2.1 (Updater.rest_verified h.2.2)
    unfold rest Event.cost
    dsimp only
    rw [Net.total_emit, List.map_singleton, List.sum_singleton]
    omega
  | insertData2 k =>
    obtain ⟨⟨pe, key⟩, hk, rfl⟩ := Option.map_eq_some_iff.mp hstep
    have htake := Net.total_take (n := cfg.numPes) (w := Updater.rest cfg p) (v := fun _ => 1) hk
    have hsame : ((s.updaters.take k).set pe ((s.updaters.node pe).insertData2 key)).total
        cfg.numPes (Updater.rest cfg p) (fun _ => 1) =
          (s.updaters.take k).total cfg.numPes (Updater.rest cfg p) (fun _ => 1) := by
      unfold Net.total
      rw [Finset.sum_congr rfl fun q _ =>
        Net.set_field (Updater.rest cfg p) (s.updaters.take k) (by rfl) q]
      rfl
    unfold rest Event.cost
    dsimp only
    rw [hsame]
    omega
  | startVerificationPhase =>
    simp only [step] at hstep
    split_ifs at hstep with h
    cases hstep
    unfold rest
    rw [h.1]
    exact le_rfl
  | checkErrors =>
    simp only [step] at hstep
    split_ifs at hstep with h
    cases hstep
    unfold rest
    rw [h.1]
    exact le_rfl

/-! ## No run is stuck -/

theorem enabled (hs : Traced cfg p bufSize es s) (hphase : s.phase ≠ .checked) :
    ∃ e : Event, e.cost = 1 ∧ ∃ t, step cfg p s e = some t := by
  by_cases htram : s.tram.flight = []
  · by_cases hback : s.updaters.flight = []
    · have hquiet : s.Quiet := by
        unfold Quiet
        rw [htram, hback]
        exact ⟨rfl, rfl⟩
      cases hs' : s.phase with
      | updates =>
        by_cases hall : ∀ pe < cfg.numPes, (s.updaters.node pe).flushed = true
        · exact ⟨.startVerificationPhase, rfl, _, if_pos ⟨hs', hquiet, hall⟩⟩
        · push Not at hall
          obtain ⟨pe, hpe, hrunning⟩ := hall
          have hrunning := Bool.eq_false_of_not_eq_true hrunning
          refine ⟨.generateUpdates pe, rfl, ?_⟩
          simp only [step]
          rw [if_pos ⟨hs', hrunning⟩]
          by_cases hnext : (s.updaters.node pe).next < p.lNumUps
          · obtain ⟨tram, htram⟩ := SortedSystem.insertValue_enabled hs.sound hpe
              (Client.pe_lt (Nat.zero_lt_of_lt hpe) (p.index cfg pe (s.updaters.node pe).next))
              (p.target cfg pe (s.updaters.node pe).next).2
            rw [if_pos hnext]
            exact ⟨_, Option.map_eq_some_iff.mpr ⟨tram, htram, rfl⟩⟩
          · obtain ⟨tram, htram⟩ := SortedSystem.tflush_enabled hs.sound hpe
            rw [if_neg hnext]
            exact ⟨_, Option.map_eq_some_iff.mpr ⟨tram, htram, rfl⟩⟩
      | verification =>
        by_cases hall : ∀ pe < cfg.numPes, (s.updaters.node pe).verified = p.lNumUps
        · exact ⟨.checkErrors, rfl, _, if_pos ⟨hs', hquiet, hall⟩⟩
        · push Not at hall
          obtain ⟨pe, hpe, hrunning⟩ := hall
          have hmore := Nat.lt_of_le_of_ne (hs.bounds pe hpe).2 hrunning
          exact ⟨.generateUpdatesVerify pe, rfl, _, if_pos ⟨hs', hpe, hmore⟩⟩
      | checked => exact absurd hs' hphase
    · obtain ⟨⟨pe, key⟩, ms, hms⟩ := List.exists_cons_of_ne_nil hback
      have hk : s.updaters.flight[0]? = some (pe, key) := by rw [hms, List.getElem?_cons_zero]
      exact ⟨.insertData2 0, rfl, _, Option.map_eq_some_iff.mpr ⟨(pe, key), hk, rfl⟩⟩
  · obtain ⟨m, ms, hms⟩ := List.exists_cons_of_ne_nil htram
    have hk : s.tram.flight[0]? = some m := by rw [hms, List.getElem?_cons_zero]
    obtain ⟨tram, harrives⟩ := SortedSystem.deliver_enabled hs.sound hk
    exact ⟨.deliver 0, rfl, _, Option.bind_eq_some_iff.mpr
      ⟨m, hk, Option.map_eq_some_iff.mpr ⟨tram, harrives, rfl⟩⟩⟩

/-! ## Runs -/

theorem start_rest (cfg : Config ℕ) (p : Setup) (bufSize : ℕ) :
    rest cfg p (start bufSize : Histo F) = p.bound cfg := by
  have hload := SortedSystem.start_load (F := F) cfg bufSize
  have hrest : ∀ q, Updater.rest cfg p ((start bufSize : Histo F).updaters.node q) =
      p.lNumUps * (cfg.nodeSize + 5) + 1 := by
    intro q
    show (p.lNumUps - 0) * (cfg.nodeSize + 2 + 1) + 1 + 2 * (p.lNumUps - 0) = _
    rw [Nat.sub_zero]
    ring
  unfold rest Net.total Setup.bound
  rw [Finset.sum_congr rfl fun q _ => hrest q, Finset.sum_const, Finset.card_range,
    Nat.nsmul_eq_mul]
  show _ + 0 + (SortedSystem.start bufSize : SortedSystem ℕ F).load cfg + 2 = _
  rw [hload]

/-- The run has not used up more than there is, and if nothing but a flush by the clock can follow
    the check has run and has found no error. -/
structure Ends (cfg : Config ℕ) (p : Setup) (es : List Event) (s : Histo F) : Prop where
  bounded : (es.map Event.cost).sum ≤ p.bound cfg
  completes : (∀ e : Event, e.cost = 1 → step cfg p s e = none) →
    s.phase = .checked ∧ reportErrors cfg p s = 0

theorem run_ends (cfg : Config ℕ) (p : Setup) (hfits : p.Fits cfg) (bufSize : ℕ) :
    ∃ s : Histo F, construct cfg p bufSize = some s ∧
      ∀ es t, run cfg p es s = some t → Ends cfg p es t := by
  refine ⟨start bufSize, construct_eq hfits bufSize, fun es t hrun => ?_⟩
  obtain ⟨es', ht⟩ := run_traced hrun
  have hcost := runs_cost (I := fun s => ∃ es', Traced cfg p bufSize es' s)
    (fun s e t (hs : ∃ es', Traced cfg p bufSize es' s) hstep => by
      obtain ⟨es', hs⟩ := hs
      exact ⟨hs.step hstep, step_rest hs hstep⟩) ⟨[], start_traced cfg p bufSize⟩ hrun
  rw [start_rest] at hcost
  refine ⟨(Nat.le_add_left ..).trans hcost, fun hstuck => ?_⟩
  have hphase : t.phase = .checked := by
    by_contra hno
    obtain ⟨e, he, u, hu⟩ := enabled ht hno
    rw [hstuck e he] at hu
    cases hu
  exact ⟨hphase, ht.no_errors hphase⟩

theorem run_ends_wholeRun : ∃ s t : Histo ℚ, construct twoPes fourUpdates 2 = some s ∧
    run twoPes fourUpdates wholeRun s = some t ∧ t.phase = .checked ∧
      Ends twoPes fourUpdates wholeRun t := by
  obtain ⟨s, hs, hends⟩ :=
    run_ends (F := ℚ) twoPes fourUpdates ⟨by decide, by decide⟩ 2
  obtain ⟨t, ht, hphase⟩ := of_check (P := fun t : Histo ℚ => t.phase = .checked)
    (o := run twoPes fourUpdates wholeRun (start 2)) (by decide +kernel)
  cases hs
  exact ⟨start 2, t, rfl, ht, hphase, hends wholeRun t ht⟩

end Htram.Histo
