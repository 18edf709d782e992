import Htram.Client.Gathered
import Htram.System.Load
import Mathlib.Tactic.Ring

/-!
# The index gather ends

A request is worth the insert of its answer, and an index the rounds that it has not begun. Every
event uses up some of that, and until the check has run there is an event that can take place.

* `IndexGather.step_rest`: an event costs.
* `IndexGather.enabled`: no run is stuck.
* `IndexGather.run_terminates`: every run has a bounded number of events, and one that cannot go on
  has run the check.
-/

namespace Htram.IndexGather

open Network SortedSystem

variable {F : Type*}

/-- What an updater has still to do: an index has two inserts for each round it has not begun. -/
def Updater.rest (cfg : Config Packet1) (p : Setup) (u : Updater) : ℕ :=
  (p.lNumReq - u.next) * (6 * price cfg + 1) +
    2 * price cfg * ∑ i ∈ Finset.range u.next, (2 - u.count i) +
    (if u.flushed then 0 else 1) + (if u.lastFlushed then 0 else 1)

/-- The phases that are left. -/
def Phase.rest : Phase → ℕ
  | .updates => 3
  | .lastFlush => 2
  | .latency => 1
  | .checked _ => 0

/-- The work that is left while the requests `asked` are being handed over. -/
def rest (cfg : Config Packet1) (p : Setup) (asked : List (ℕ × Packet1)) (s : IndexGather F) : ℕ :=
  ∑ q ∈ Finset.range cfg.numPes, (s.updater q).rest cfg p +
    (s.requests cfg asked).card * price cfg + s.req.load cfg + s.resp.load cfg + s.phase.rest

/-- What a run can use up. -/
def Setup.bound (cfg : Config Packet1) (p : Setup) : ℕ :=
  cfg.numPes * (p.lNumReq * (6 * cfg.nodeSize + 13) + 2) + 3

variable {cfg : Config Packet1} {p : Setup} {s t : IndexGather F}
  {asked answered : List (ℕ × Packet1)}

/-! ## Updaters -/

theorem Updater.rest_next {u : Updater} (hnext : u.next < p.lNumReq) (hnone : u.count u.next = 0) :
    Updater.rest cfg p { u with next := u.next + 1 } + (2 * price cfg + 1) = u.rest cfg p := by
  obtain ⟨n, hn⟩ := Nat.exists_eq_add_of_lt hnext
  unfold Updater.rest
  dsimp only
  rw [Finset.sum_range_succ, hnone, hn, show u.next + n + 1 - (u.next + 1) = n by omega,
    show u.next + n + 1 - u.next = n + 1 by omega]
  ring

/-- One more answer to an index that has been answered less than three times. -/
theorem Updater.rest_count {u u' : Updater} {i : ℕ} (hi : i < u.next) (hcount : u.count i < 3)
    (hu : u'.next = u.next ∧ u'.flushed = u.flushed ∧ u'.lastFlushed = u.lastFlushed)
    (hnew : u'.count = Function.update u.count i (u.count i + 1)) :
    u'.rest cfg p + (if u'.count i < 3 then 2 * price cfg else 0) = u.rest cfg p := by
  have hsum := Rows.sum_update (fun c => 2 - c) u.count hi (u.count i + 1)
  have hself : u'.count i = u.count i + 1 := by rw [hnew, Function.update_self]
  have hleft : 2 * price cfg * ∑ j ∈ Finset.range u.next, (2 - u'.count j) +
      (if u'.count i < 3 then 2 * price cfg else 0) =
        2 * price cfg * ∑ j ∈ Finset.range u.next, (2 - u.count j) := by
    rw [hself, hnew, ← mul_one (2 * price cfg), ← mul_zero (2 * price cfg), ← mul_ite, mul_one,
      ← Nat.mul_add]
    congr 1
    split_ifs
    all_goals omega
  unfold Updater.rest
  rw [hu.1, hu.2.1, hu.2.2, ← hleft]
  omega

theorem Updater.rest_flushed {u : Updater} (hflushed : u.flushed = false) :
    Updater.rest cfg p { u with flushed := true } + 1 = u.rest cfg p := by
  unfold Updater.rest
  rw [hflushed, if_pos rfl, if_neg Bool.false_ne_true]
  dsimp only
  omega

theorem Updater.rest_lastFlushed {u : Updater} (hflushed : u.lastFlushed = false) :
    Updater.rest cfg p { u with lastFlushed := true } + 1 = u.rest cfg p := by
  unfold Updater.rest
  rw [hflushed, if_pos rfl, if_neg Bool.false_ne_true]

/-- What an updater does, all updaters have done. -/
theorem update_rest {us : ℕ → Updater} {pe k : ℕ} (hpe : pe < cfg.numPes) {u : Updater}
    (hu : u.rest cfg p + k = (us pe).rest cfg p) :
    ∑ q ∈ Finset.range cfg.numPes, (Function.update us pe u q).rest cfg p + k =
      ∑ q ∈ Finset.range cfg.numPes, (us q).rest cfg p := by
  have hsum := Rows.sum_update (Updater.rest cfg p) us hpe u
  omega

/-- An answer is kept: what is left to do for its index pays for the next request. -/
theorem keep_rest {x : ℕ × Packet1} (hs : Sound cfg p asked (x :: answered) s)
    (hpe : x.1 < cfg.numPes) {u : Updater}
    (hu : u = { s.updater x.1 with
      tgt := Function.update (s.updater x.1).tgt x.2.idx x.2.val
      count := Function.update (s.updater x.1).count x.2.idx
        ((s.updater x.1).count x.2.idx + 1) }) :
    ∑ q ∈ Finset.range cfg.numPes, (Function.update s.updater x.1 u q).rest cfg p +
      (if u.count x.2.idx < 3 then 2 * price cfg else 0) =
        ∑ q ∈ Finset.range cfg.numPes, (s.updater q).rest cfg p := by
  have hwanted := wanted_of_owed hs.has_token
  refine update_rest hpe (Updater.rest_count hwanted.1 hwanted.2 ?_ (by rw [hu]))
  rw [hu]
  exact ⟨rfl, rfl, rfl⟩

/-- A flush costs what its PE no longer has to do. -/
theorem tflush_rest {pe : ℕ} {u : Updater} {req resp : SortedSystem Packet1 F}
    (hpe : pe < cfg.numPes) (hu : u.rest cfg p + 1 = (s.updater pe).rest cfg p)
    (hstock : req.stock cfg = s.req.stock cfg) (hreq : req.load cfg ≤ s.req.load cfg)
    (hresp : resp.load cfg ≤ s.resp.load cfg) :
    rest cfg p asked { s with req, resp, updater := Function.update s.updater pe u } + 1 ≤
      rest cfg p asked s := by
  have hsum := update_rest hpe hu
  have hsame : requests cfg asked { s with
      req, resp, updater := Function.update s.updater pe u } = s.requests cfg asked :=
    congrArg (· + _) hstock
  unfold rest
  rw [hsame]
  dsimp only
  omega

theorem Setup.IsRequest.pe_lt {x : ℕ × Packet1} (hx : p.IsRequest cfg x) : x.1 < cfg.numPes := by
  rw [hx.2]
  exact Client.pe_lt (Nat.zero_lt_of_lt hx.1.1) _

theorem Setup.IsResponse.pe_lt {x : ℕ × Packet1} (hx : p.IsResponse cfg x) :
    x.1 < cfg.numPes := by
  rw [show x.1 = x.2.pe from congrArg Prod.fst hx.2]
  exact hx.1.1

/-! ## What an event costs -/

variable [ReleaseArith F]

/-- A request is sent, and its index has less to do by more than the request is worth. -/
theorem request_rest (hs : s.req.Sound cfg) {pe i k : ℕ} (hpe : pe < cfg.numPes)
    {updater : ℕ → Updater}
    (hsum : ∑ q ∈ Finset.range cfg.numPes, (updater q).rest cfg p + (2 * price cfg + k) =
      ∑ q ∈ Finset.range cfg.numPes, (s.updater q).rest cfg p) {req : SortedSystem Packet1 F}
    (hreq : s.req.step cfg
      (.call pe (.insertValue (p.request cfg pe i).2 (p.request cfg pe i).1)) = some req) :
    rest cfg p asked { s with req, updater } + k ≤ rest cfg p asked s := by
  have hdest : (p.request cfg pe i).1 < cfg.numPes := Client.pe_lt (Nat.zero_lt_of_lt hpe) _
  have hload := insertValue_load hs hdest hreq
  have hop : HTram.SourceSorts cfg
      (.insertValue (p.request cfg pe i).2 (p.request cfg pe i).1 : Op Packet1 F) := hdest
  have hcard : (requests cfg asked { s with req, updater }).card =
      (s.requests cfg asked).card + 1 := by
    unfold requests
    dsimp only
    rw [call_stock hs hop hreq, add_right_comm, Multiset.card_add]
    rfl
  unfold rest
  rw [hcard, Nat.add_mul, Nat.one_mul]
  dsimp only
  omega

theorem requestData_rest {x : ℕ × Packet1} (hs : Sound cfg p (x :: asked) answered s)
    (hstep : requestData cfg p s x.1 x.2 = some t) :
    rest cfg p asked t ≤ rest cfg p (x :: asked) s := by
  obtain ⟨resp, hresp, rfl⟩ := Option.map_eq_some_iff.mp hstep
  have hx := hs.isRequest x (mem_requests_cons.mpr (.inr rfl))
  have hload := insertValue_load hs.resp hx.1.1 hresp
  have hcard : (s.requests cfg (x :: asked)).card = (s.requests cfg asked).card + 1 := by
    rw [requests_cons, Multiset.card_add, Multiset.card_singleton]
  have hsame : requests cfg asked { s with resp } = s.requests cfg asked := rfl
  unfold rest
  rw [hcard, hsame, Nat.add_mul, Nat.one_mul]
  dsimp only
  omega

theorem responseData_rest {x : ℕ × Packet1} (hs : Sound cfg p asked (x :: answered) s)
    (hstep : responseData cfg p s x.1 x.2 = some t) : rest cfg p asked t ≤ rest cfg p asked s := by
  have hpe := (hs.isResponse x (mem_responses_cons.mpr (.inr rfl))).pe_lt
  have hsum := keep_rest hs hpe rfl
  simp only [responseData] at hstep
  split_ifs at hstep with hmore
  · obtain ⟨req, hreq, rfl⟩ := Option.map_eq_some_iff.mp hstep
    rw [if_pos hmore] at hsum
    exact request_rest (k := 0) hs.req hpe hsum hreq
  · cases hstep
    rw [if_neg hmore, add_zero] at hsum
    unfold rest
    dsimp only at hsum ⊢
    rw [hsum]
    exact le_rfl

theorem takeRequests_rest (hs : s.req.Sound cfg) {k : ℕ} {m : SortedPacket Packet1}
    {req : SortedSystem Packet1 F} (hk : s.req.flight[k]? = some m)
    (hreq : s.req.step cfg (.deliver k) = some req) :
    rest cfg p (handedBy m) { s with req } + 1 ≤ rest cfg p [] s := by
  have hload := deliver_load hs hreq
  have hsame : requests cfg (handedBy m) { s with req } = s.requests cfg [] :=
    (deliver_stock hs hk hreq).trans (add_zero _).symm
  unfold rest
  rw [hsame]
  dsimp only
  omega

theorem takeResponses_rest (hs : s.resp.Sound cfg) {k : ℕ} {resp : SortedSystem Packet1 F}
    (hresp : s.resp.step cfg (.deliver k) = some resp) :
    rest cfg p asked { s with resp } + 1 ≤ rest cfg p asked s := by
  have hload := deliver_load hs hresp
  have hsame : requests cfg asked { s with resp } = s.requests cfg asked := rfl
  unfold rest
  rw [hsame]
  dsimp only
  omega

theorem step_rest (hs : Sound cfg p [] [] s) {e : Event} (hstep : step cfg p s e = some t) :
    rest cfg p [] t + 1 ≤ rest cfg p [] s := by
  cases e with
  | generateUpdates pe =>
    simp only [step] at hstep
    split_ifs at hstep with hrunning hnext
    · obtain ⟨req, hreq, rfl⟩ := Option.map_eq_some_iff.mp hstep
      have hpe := call_inside hreq
      have hnone := (hs.count pe _).2 le_rfl
      exact request_rest hs.req hpe (update_rest hpe (Updater.rest_next hnext hnone)) hreq
    · obtain ⟨req, hreq, rfl⟩ := Option.map_eq_some_iff.mp hstep
      have hop : HTram.SourceSorts cfg (.tflush false : Op Packet1 F) := trivial
      have hstock : req.stock cfg = s.req.stock cfg + 0 := call_stock hs.req hop hreq
      exact tflush_rest (call_inside hreq) (Updater.rest_flushed hrunning.2)
        (hstock.trans (add_zero _)) (tflush_load hs.req hreq) le_rfl
  | deliverReq k =>
    obtain ⟨m, hk, hstep⟩ := Option.bind_eq_some_iff.mp hstep
    obtain ⟨req, hreq, hrun⟩ := Option.bind_eq_some_iff.mp hstep
    have hcost := takeRequests_rest (p := p) hs.req hk hreq
    exact (runs_rest (I := fun xs u => Sound cfg p xs [] u ∧ rest cfg p xs u + 1 ≤ rest cfg p [] s)
      (fun _ _ _ _ hs hx => ⟨hs.1.requestData hx,
        (Nat.add_le_add_right (requestData_rest hs.1 hx) 1).trans hs.2⟩)
      ⟨hs.takeRequests hk hreq, hcost⟩ hrun).2
  | deliverResp k =>
    obtain ⟨m, hk, hstep⟩ := Option.bind_eq_some_iff.mp hstep
    obtain ⟨resp, hresp, hrun⟩ := Option.bind_eq_some_iff.mp hstep
    have hcost : rest cfg p [] { s with resp } + 1 ≤ rest cfg p [] s :=
      takeResponses_rest hs.resp hresp
    exact (runs_rest (I := fun xs u => Sound cfg p [] xs u ∧ rest cfg p [] u + 1 ≤ rest cfg p [] s)
      (fun _ _ _ _ hs hx => ⟨hs.1.responseData hx,
        (Nat.add_le_add_right (responseData_rest hs.1 hx) 1).trans hs.2⟩)
      ⟨hs.takeResponses hk hresp, hcost⟩ hrun).2
  | lastFlush pe =>
    simp only [step] at hstep
    split_ifs at hstep with hrunning
    obtain ⟨resp, hresp, rfl⟩ := Option.map_eq_some_iff.mp hstep
    exact tflush_rest (call_inside hresp) (Updater.rest_lastFlushed hrunning.2) rfl le_rfl
      (tflush_load hs.resp hresp)
  | startVerificationPhase =>
    simp only [step] at hstep
    split_ifs at hstep with h
    cases hstep
    unfold rest
    rw [h.1]
    exact le_rfl
  | completeRun =>
    simp only [step] at hstep
    split_ifs at hstep with h
    cases hstep
    unfold rest
    rw [h.1]
    exact le_rfl
  | checkErrors =>
    simp only [step] at hstep
    split_ifs at hstep with h
    cases hstep
    unfold rest
    rw [h.1]
    exact le_rfl

/-! ## No run is stuck -/

theorem request_enabled (hs : s.req.Sound cfg) {pe : ℕ} (hpe : pe < cfg.numPes) (i : ℕ) :
    ∃ req, s.req.step cfg
      (.call pe (.insertValue (p.request cfg pe i).2 (p.request cfg pe i).1)) = some req :=
  insertValue_enabled hs hpe (Client.pe_lt (Nat.zero_lt_of_lt hpe) _) _

theorem requestData_enabled {x : ℕ × Packet1} (hs : Sound cfg p (x :: asked) answered s) :
    ∃ t, requestData cfg p s x.1 x.2 = some t := by
  have hx := hs.isRequest x (mem_requests_cons.mpr (.inr rfl))
  obtain ⟨resp, hresp⟩ := insertValue_enabled hs.resp hx.pe_lt hx.1.1 (p.answer x.1 x.2)
  exact ⟨_, Option.map_eq_some_iff.mpr ⟨resp, hresp, rfl⟩⟩

theorem responseData_enabled {x : ℕ × Packet1} (hs : Sound cfg p asked (x :: answered) s) :
    ∃ t, responseData cfg p s x.1 x.2 = some t := by
  have hx := hs.isResponse x (mem_responses_cons.mpr (.inr rfl))
  obtain ⟨req, hreq⟩ := request_enabled (p := p) hs.req hx.pe_lt x.2.idx
  simp only [responseData]
  split_ifs
  · exact ⟨_, Option.map_eq_some_iff.mpr ⟨req, hreq, rfl⟩⟩
  · exact ⟨_, rfl⟩

/-- A message arrives, and its callbacks return. -/
theorem deliver_enabled (hs : Sound cfg p [] [] s) (hbusy : ¬ s.Quiet) :
    ∃ e t, step cfg p s e = some t := by
  by_cases hreq : s.req.flight = []
  · have hresp : s.resp.flight ≠ [] := fun h => hbusy ⟨by rw [hreq]; rfl, by rw [h]; rfl⟩
    obtain ⟨m, ms, hms⟩ := List.exists_cons_of_ne_nil hresp
    have hk : s.resp.flight[0]? = some m := by rw [hms, List.getElem?_cons_zero]
    obtain ⟨resp, harrives⟩ := SortedSystem.deliver_enabled hs.resp hk
    obtain ⟨t, ht⟩ := runs_enabled (I := fun xs u => Sound cfg p [] xs u)
      (fun x _ _ hu => (responseData_enabled hu).imp fun _ hx => ⟨hx, hu.responseData hx⟩)
      (hs.takeResponses hk harrives)
    exact ⟨.deliverResp 0, t, Option.bind_eq_some_iff.mpr
      ⟨m, hk, Option.bind_eq_some_iff.mpr ⟨resp, harrives, ht⟩⟩⟩
  · obtain ⟨m, ms, hms⟩ := List.exists_cons_of_ne_nil hreq
    have hk : s.req.flight[0]? = some m := by rw [hms, List.getElem?_cons_zero]
    obtain ⟨req, harrives⟩ := SortedSystem.deliver_enabled hs.req hk
    obtain ⟨t, ht⟩ := runs_enabled (I := fun xs u => Sound cfg p xs [] u)
      (fun x _ _ hu => (requestData_enabled hu).imp fun _ hx => ⟨hx, hu.requestData hx⟩)
      (hs.takeRequests hk harrives)
    exact ⟨.deliverReq 0, t, Option.bind_eq_some_iff.mpr
      ⟨m, hk, Option.bind_eq_some_iff.mpr ⟨req, harrives, ht⟩⟩⟩

theorem generateUpdates_enabled (hs : Sound cfg p asked answered s) (hphase : s.phase = .updates)
    {pe : ℕ} (hpe : pe < cfg.numPes) (hrunning : (s.updater pe).flushed = false) :
    ∃ e t, step cfg p s e = some t := by
  refine ⟨.generateUpdates pe, ?_⟩
  simp only [step]
  rw [if_pos ⟨hphase, hrunning⟩]
  by_cases hnext : (s.updater pe).next < p.lNumReq
  · obtain ⟨req, hreq⟩ := request_enabled (p := p) hs.req hpe (s.updater pe).next
    rw [if_pos hnext]
    exact ⟨_, Option.map_eq_some_iff.mpr ⟨req, hreq, rfl⟩⟩
  · obtain ⟨req, hreq⟩ := tflush_enabled hs.req hpe
    rw [if_neg hnext]
    exact ⟨_, Option.map_eq_some_iff.mpr ⟨req, hreq, rfl⟩⟩

theorem lastFlush_enabled (hs : Sound cfg p asked answered s) (hphase : s.phase = .lastFlush)
    {pe : ℕ} (hpe : pe < cfg.numPes) (hrunning : (s.updater pe).lastFlushed = false) :
    ∃ e t, step cfg p s e = some t := by
  obtain ⟨resp, hresp⟩ := tflush_enabled hs.resp hpe
  refine ⟨.lastFlush pe, ?_⟩
  simp only [step]
  rw [if_pos ⟨hphase, hrunning⟩]
  exact ⟨_, Option.map_eq_some_iff.mpr ⟨resp, hresp, rfl⟩⟩

theorem enabled (hs : Sound cfg p [] [] s) (hphase : ∀ n, s.phase ≠ .checked n) :
    ∃ e t, step cfg p s e = some t := by
  by_cases hquiet : s.Quiet
  · cases hs' : s.phase with
    | updates =>
      by_cases hall : ∀ pe < cfg.numPes, (s.updater pe).flushed = true
      · exact ⟨.startVerificationPhase, _, if_pos ⟨hs', hquiet, hall⟩⟩
      · push Not at hall
        obtain ⟨pe, hpe, hrunning⟩ := hall
        exact generateUpdates_enabled hs hs' hpe (Bool.eq_false_of_not_eq_true hrunning)
    | lastFlush =>
      by_cases hall : ∀ pe < cfg.numPes, (s.updater pe).lastFlushed = true
      · exact ⟨.completeRun, _, if_pos ⟨hs', hquiet, hall⟩⟩
      · push Not at hall
        obtain ⟨pe, hpe, hrunning⟩ := hall
        exact lastFlush_enabled hs hs' hpe (Bool.eq_false_of_not_eq_true hrunning)
    | latency => exact ⟨.checkErrors, _, if_pos ⟨hs', hquiet⟩⟩
    | checked n => exact absurd hs' (hphase n)
  · exact deliver_enabled hs hquiet

/-! ## Runs -/

theorem start_rest (cfg : Config Packet1) (p : Setup) (bufSize : ℕ) :
    rest cfg p [] (start bufSize : IndexGather F) = p.bound cfg := by
  have hload := SortedSystem.start_load (F := F) cfg bufSize
  have hrequests : (start bufSize : IndexGather F).requests cfg [] = 0 :=
    (congrArg (· + _) (SortedSystem.start_stock cfg bufSize)).trans (add_zero _)
  have hrest : ∀ q, Updater.rest cfg p ((start bufSize : IndexGather F).updater q) =
      p.lNumReq * (6 * cfg.nodeSize + 13) + 2 := by
    intro q
    show (p.lNumReq - 0) * (6 * (cfg.nodeSize + 2) + 1) + 2 * price cfg * 0 + 1 + 1 = _
    rw [Nat.sub_zero]
    ring
  unfold rest Setup.bound
  rw [Finset.sum_congr rfl fun q _ => hrest q, Finset.sum_const, Finset.card_range,
    Nat.nsmul_eq_mul, hrequests, Multiset.card_zero, Nat.zero_mul]
  show _ + 0 + (SortedSystem.start bufSize : SortedSystem Packet1 F).load cfg +
    (SortedSystem.start bufSize : SortedSystem Packet1 F).load cfg + 3 = _
  rw [hload]

/-- The run is no longer than there is work, and if no event can follow the check has run and, with
    no more than 65536 PEs, has found no error. -/
structure Terminates (cfg : Config Packet1) (p : Setup) (es : List Event) (s : IndexGather F) :
    Prop where
  bounded : es.length ≤ p.bound cfg
  completes : (∀ e, step cfg p s e = none) →
    ∃ n, s.phase = .checked n ∧ (cfg.numPes ≤ 2 ^ 16 → n = 0)

theorem run_terminates (cfg : Config Packet1) (p : Setup) (hfits : p.Fits cfg) (bufSize : ℕ) :
    ∃ s : IndexGather F, construct cfg p bufSize = some s ∧
      ∀ es t, run cfg p es s = some t → Terminates cfg p es t := by
  refine ⟨start bufSize, construct_eq hfits bufSize, fun es t hrun => ?_⟩
  have ht : Sound cfg p [] [] t := runs_inv (I := fun s => Sound cfg p [] [] s)
    (fun _ _ _ (_ : True) hs hstep => hs.step hstep) (fun _ _ => trivial)
    (start_sound cfg p bufSize) hrun
  have hcost : rest cfg p [] t + (es.map fun _ => 1).sum ≤ rest cfg p [] (start bufSize) :=
    runs_cost (I := fun s => Sound cfg p [] [] s)
      (fun _ _ _ hs hstep => ⟨hs.step hstep, step_rest hs hstep⟩) (start_sound cfg p bufSize) hrun
  rw [start_rest, List.map_const', List.sum_replicate, Nat.nsmul_eq_mul, Nat.mul_one] at hcost
  refine ⟨(Nat.le_add_left ..).trans hcost, fun hstuck => ?_⟩
  by_contra hno
  obtain ⟨e, u, hu⟩ := enabled ht fun n hn => hno ⟨n, hn, fun hpes => ht.checked hfits hpes n hn⟩
  rw [hstuck e] at hu
  cases hu

theorem run_terminates_wholeRun : ∃ s t : IndexGather ℚ,
    construct twoPes twoIndices 2 = some s ∧ run twoPes twoIndices wholeRun s = some t ∧
      t.phase = .checked 0 ∧ Terminates twoPes twoIndices wholeRun t := by
  obtain ⟨s, hs, hends⟩ :=
    run_terminates (F := ℚ) twoPes twoIndices ⟨by decide, by decide⟩ 2
  obtain ⟨t, ht, hphase⟩ := of_check (P := fun t : IndexGather ℚ => t.phase = .checked 0)
    (o := run twoPes twoIndices wholeRun (start 2)) (by decide +kernel)
  cases hs
  exact ⟨start 2, t, rfl, ht, hphase, hends wholeRun t ht⟩

end Htram.IndexGather
