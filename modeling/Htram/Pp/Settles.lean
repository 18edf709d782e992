import Htram.Pp.Calls

/-!
# The machine comes to rest

An infinite run in which every PE that is in a call gets its turn again and again and messages
arrive again and again, while there are any. When the clients make no more calls, all calls return,
though they wait for each other in the shared buffers, and then all messages arrive.

* `Cluster.Fair.shared`: what the PEs of a node share for another is used in a fair run.
* `Cluster.Fair.returns`: a PE that has no slots to wait for returns, whatever the others do.
* `Cluster.Fair.quiesces`: when no more calls are made, nothing happens from some moment on.
* `Cluster.Fair.delivers`: if the last call of every PE was a flush, every client has then been
  handed all its items.
-/

namespace Htram

namespace PP

open Finset Network

variable {α : Type*} {cfg : ClusterConfig}

namespace Cluster

variable [Inhabited α] {n d r pe : ℕ}

/-! ## Fair runs -/

/-- The events before step `n`, where `none` is a step in which nothing happens. -/
def before (e : ℕ → Option (Event α)) (n : ℕ) : List (Event α) := (List.range n).filterMap e

omit [Inhabited α] in
theorem before_succ (e : ℕ → Option (Event α)) (n : ℕ) :
    before e (n + 1) = before e n ++ (e n).toList := by
  unfold before
  rw [List.range_succ, List.filterMap_append, List.filterMap_cons, List.filterMap_nil]
  cases e n <;> rfl

/-- An infinite run. A PE that is in a call gets its turn after every moment, and so does some
    message while there are any. The clients may call when they like. -/
structure Fair (cfg : ClusterConfig) (σ : ℕ → Cluster α) (e : ℕ → Option (Event α)) : Prop where
  start : σ 0 = start cfg
  step : ∀ n, run cfg (e n).toList (σ n) = some (σ (n + 1))
  turns : ∀ pe < cfg.allPes, ∀ n, ∃ m ≥ n,
    (σ m).taskOf cfg pe = .idle ∨ e m = some (.turn pe)
  arrives : ∀ n, ∃ m ≥ n, (σ m).flight = [] ∨ ∃ k skip, e m = some (.deliver k skip)

/-- The run `es`, after which nothing happens any more. -/
def play (cfg : ClusterConfig) (es : List (Event α)) (n : ℕ) : Cluster α :=
  (run cfg (es.take n) (start cfg)).getD (start cfg)

namespace Fair

variable {σ : ℕ → Cluster α} {e : ℕ → Option (Event α)}

/-- A run to a quiet state is fair. -/
theorem play {es : List (Event α)} {t : Cluster α} (hrun : run cfg es (Cluster.start cfg) = some t)
    (hquiet : t.Quiet cfg) : Fair cfg (Cluster.play cfg es) fun n => es[n]? := by
  have hstart : ∀ n, run cfg (es.take n) (Cluster.start cfg) = some (Cluster.play cfg es n) := by
    intro n
    rw [← List.take_append_drop n es] at hrun
    obtain ⟨s, hs, -⟩ := runs_append.mp hrun
    unfold Cluster.play
    rw [show run cfg (es.take n) (Cluster.start cfg) = some s from hs, Option.getD_some]
  have hlast : ∀ n, Cluster.play cfg es (max n es.length) = t := by
    intro n
    have hall := hstart (max n es.length)
    rw [List.take_of_length_le (Nat.le_max_right ..), hrun] at hall
    exact (Option.some.inj hall).symm
  refine ⟨rfl, fun n => ?_, fun pe hpe n => ?_, fun n => ?_⟩
  · have hnext := hstart (n + 1)
    rw [List.take_add_one] at hnext
    obtain ⟨s, hs, hstep⟩ := runs_append.mp hnext
    rw [Option.some.inj ((hstart n).symm.trans hs)]
    exact hstep
  · refine ⟨max n es.length, Nat.le_max_left .., .inl ?_⟩
    rw [hlast]
    exact hquiet.2 pe hpe
  · refine ⟨max n es.length, Nat.le_max_left .., .inl ?_⟩
    rw [hlast]
    exact hquiet.1

theorem run_before (h : Fair cfg σ e) (n : ℕ) :
    run cfg (before e n) (Cluster.start cfg) = some (σ n) := by
  induction n with
  | zero => rw [h.start]; rfl
  | succ n ih =>
    rw [before_succ]
    exact runs_append.mpr ⟨_, ih, h.step n⟩

theorem sound (h : Fair cfg σ e) (n : ℕ) : ∃ done, (σ n).Sound cfg done :=
  ⟨_, (run_sound (start_sound cfg) (h.run_before n)).1⟩

/-- Nothing happens, or one event. -/
theorem next (h : Fair cfg σ e) (n : ℕ) :
    e n = none ∧ σ (n + 1) = σ n ∨
      ∃ ev, e n = some ev ∧ Cluster.step cfg (σ n) ev = some (σ (n + 1)) := by
  have hstep := h.step n
  cases he : e n with
  | none =>
    rw [he] at hstep
    exact .inl ⟨rfl, (Option.some.inj hstep).symm⟩
  | some ev =>
    rw [he] at hstep
    obtain ⟨t, ht, hrest⟩ := runs_cons.mp hstep
    rw [Option.some.inj hrest] at ht
    exact .inr ⟨ev, rfl, ht⟩

theorem rests (h : Fair cfg σ e) {k : ℕ} (hn : n < cfg.numNodes) (hd : d < cfg.numNodes)
    (hr : r < cfg.numPes) : (((σ k).node n).shared d).pc r = .idle ↔
      ¬ ((σ k).taskOf cfg (n * cfg.numPes + r)).At d := by
  obtain ⟨done, hs⟩ := h.sound k
  rw [taskOf_eq _ hr, ← (hs.node n hn).inCall d hd r, not_not]

/-- What the PEs of a node share for another is used in a fair run. -/
theorem shared (h : Fair cfg σ e) (hn : n < cfg.numNodes) (hd : d < cfg.numNodes) :
    PP.Fair cfg.toNodeConfig fun k => ((σ k).node n).shared d where
  start := by
    rw [h.start]
    exact .refl
  step := by
    intro k
    obtain ⟨done, hs⟩ := h.sound k
    rcases h.next k with ⟨-, hsame⟩ | ⟨ev, -, hstep⟩
    · left
      rw [hsame]
    · exact step_shared hs hstep n hd
  turns := by
    intro r hr k
    obtain ⟨m, hm, hturn⟩ := h.turns _ (ClusterConfig.pe_lt hn hr) k
    refine ⟨m, hm, ?_⟩
    by_cases hat : ((σ m).taskOf cfg (n * cfg.numPes + r)).At d
    · right
      have hbusy : (σ m).taskOf cfg (n * cfg.numPes + r) ≠ .idle := by
        intro hidle
        rw [hidle] at hat
        rcases hat with hat | hat <;> cases hat
      rcases h.next m with ⟨hnone, -⟩ | ⟨ev, hev, hstep⟩
      · simp [hbusy, hnone] at hturn
      · rw [hturn.resolve_left hbusy] at hev
        cases hev
        exact turn_shared hstep hr hat
    · exact .inl ((h.rests hn hd hr).mpr hat)

theorem entered (h : Fair cfg σ e) (n : ℕ) : (σ n).Entered := by
  induction n with
  | zero =>
    rw [h.start]
    exact fun _ _ _ htask => by cases htask
  | succ n ih =>
    rcases h.next n with ⟨-, hsame⟩ | ⟨ev, -, hstep⟩
    · rwa [hsame]
    · exact step_entered ih hstep

/-- A PE that is in one of the functions for a shared buffer and has no slots to wait for leaves
    it. -/
theorem leaves (h : Fair cfg σ e) (hpe : pe < cfg.allPes) (hat : ((σ n).taskOf cfg pe).At d)
    (hslots : ∀ items, (((σ n).node (cfg.nodeOf pe)).shared d).pc (cfg.rankOf pe) ≠
      .claim items) : ∃ m > n, ¬ ((σ m).taskOf cfg pe).At d := by
  have hn := ClusterConfig.nodeOf_lt hpe
  have hr := cfg.rankOf_lt pe
  have hd : d < cfg.numNodes := by
    obtain ⟨done, hs⟩ := h.sound n
    exact ((hs.node _ hn).worker _).inRange d hat
  have hrests : ∀ k, (((σ k).node (cfg.nodeOf pe)).shared d).pc (cfg.rankOf pe) = .idle ↔
      ¬ ((σ k).taskOf cfg pe).At d := by
    intro k
    rw [h.rests hn hd hr, cfg.nodeOf_rankOf]
  have hbusy : ((((σ n).node (cfg.nodeOf pe)).shared d).pc (cfg.rankOf pe)).Busy := by
    have hidle := mt (hrests n).mp (not_not.mpr hat)
    cases hpc : (((σ n).node (cfg.nodeOf pe)).shared d).pc (cfg.rankOf pe)
    case idle => exact absurd hpc hidle
    case claim items => exact absurd hpc (hslots items)
    all_goals trivial
  obtain ⟨m, hm, hidle⟩ := (h.shared hn hd).idle_again hbusy
  exact ⟨m, hm, (hrests m).mp hidle⟩

/-- A PE in a call goes on, or stays where it is, until it returns. -/
theorem left_le_of_busy (h : Fair cfg σ e) (hbusy : (σ n).taskOf cfg pe ≠ .idle) :
    (σ (n + 1)).taskOf cfg pe = (σ n).taskOf cfg pe ∨
      ((σ (n + 1)).taskOf cfg pe).left cfg < ((σ n).taskOf cfg pe).left cfg := by
  obtain ⟨done, hs⟩ := h.sound n
  rcases h.next n with ⟨-, hsame⟩ | ⟨ev, -, hstep⟩
  · rw [hsame]
    exact .inl rfl
  · exact step_left hs hstep (.inr hbusy)

/-- A PE that flushes does not stay where it is for ever. -/
theorem flush_moves (h : Fair cfg σ e) (hpe : pe < cfg.allPes)
    (hbusy : ∀ m ≥ n, (σ m).taskOf cfg pe ≠ .idle)
    (hflush : ∀ d, (σ n).taskOf cfg pe ≠ .copying d) :
    ∃ m ≥ n, ((σ (m + 1)).taskOf cfg pe).left cfg < ((σ m).taskOf cfg pe).left cfg := by
  by_contra hstay
  push Not at hstay
  have hsame : ∀ m ≥ n, (σ m).taskOf cfg pe = (σ n).taskOf cfg pe := by
    intro m hm
    induction m, hm using Nat.le_induction with
    | base => rfl
    | succ m hm ih =>
      exact ((h.left_le_of_busy (hbusy m hm)).resolve_right (not_lt.mpr (hstay m hm))).trans ih
  by_cases hat : ∃ d, ((σ n).taskOf cfg pe).At d
  · obtain ⟨d, hat⟩ := hat
    have hship : (σ n).taskOf cfg pe = .shipping d := hat.resolve_left (hflush d)
    obtain ⟨m, hm, hleft⟩ := h.leaves hpe hat (h.entered n _ _ d hship)
    rw [hsame m hm.le] at hleft
    exact hleft hat
  · obtain ⟨m, hm, hturn⟩ := h.turns pe hpe n
    have hturn := hturn.resolve_left (hbusy m hm)
    obtain ⟨done, hs⟩ := h.sound m
    rcases h.next m with ⟨hnone, -⟩ | ⟨ev, hev, hstep⟩
    · rw [hturn] at hnone
      cases hnone
    · rw [hturn] at hev
      cases hev
      rcases turn_left hs hstep with hat' | hless
      · rw [hsame m hm] at hat'
        exact hat hat'
      · exact absurd hless (not_lt.mpr (hstay m hm))

/-- Every flush returns, and so does every call of `copyToNodeBuf` that got its slots, whatever
    calls the other PEs go on to make. -/
theorem returns (h : Fair cfg σ e) (hpe : pe < cfg.allPes)
    (hcall : (σ n).taskOf cfg pe ≠ .idle)
    (hslots : ∀ d items, (σ n).taskOf cfg pe = .copying d →
      (((σ n).node (cfg.nodeOf pe)).shared d).pc (cfg.rankOf pe) ≠ .claim items) :
    ∃ m > n, (σ m).taskOf cfg pe = .idle := by
  by_contra hnever
  push Not at hnever
  have hbusy : ∀ m ≥ n, (σ m).taskOf cfg pe ≠ .idle := by
    intro m hm
    rcases hm.eq_or_lt with rfl | hlt
    · exact hcall
    · exact hnever m hlt
  have hle : ∀ m ≥ n, ((σ (m + 1)).taskOf cfg pe).left cfg ≤
      ((σ m).taskOf cfg pe).left cfg := by
    intro m hm
    rcases h.left_le_of_busy (hbusy m hm) with hsame | hless
    · rw [hsame]
    · exact hless.le
  have hflushes : ∀ m ≥ n, (∀ d, (σ m).taskOf cfg pe ≠ .copying d) →
      ∀ k ≥ m, ∀ d, (σ k).taskOf cfg pe ≠ .copying d := by
    intro m hm hflush k hk
    induction k, hk using Nat.le_induction with
    | base => exact hflush
    | succ k hk ih =>
      exact Task.left_lt.mp ((hle k (hm.trans hk)).trans_lt (Task.left_lt.mpr ih))
  -- from some moment on the PE flushes
  obtain ⟨m, hm, hflush⟩ : ∃ m ≥ n, ∀ d, (σ m).taskOf cfg pe ≠ .copying d := by
    by_cases hcopies : ∃ d, (σ n).taskOf cfg pe = .copying d
    · obtain ⟨d, hd⟩ := hcopies
      obtain ⟨m, hm, hleft⟩ := h.leaves hpe (.inl hd) fun items => hslots d items hd
      by_contra hcopies
      push Not at hcopies
      have hsame : ∀ k ≥ n, (σ k).taskOf cfg pe = .copying d := by
        intro k hk
        induction k, hk using Nat.le_induction with
        | base => exact hd
        | succ k hk ih =>
          rcases h.left_le_of_busy (hbusy k hk) with hsame | hless
          · exact hsame.trans ih
          · obtain ⟨e, he⟩ := hcopies (k + 1) (by omega)
            rw [ih, he] at hless
            exact absurd hless (lt_irrefl _)
      exact hleft (.inl (hsame m hm.le))
    · push Not at hcopies
      exact ⟨n, le_rfl, hcopies⟩
  obtain ⟨-, -, hno⟩ := FairRun.drops σ (fun _ => False) (fun s => (s.taskOf cfg pe).left cfg)
    (fun k (hk : k ≥ m) => hle k (hm.trans hk)) fun k hk => by
      obtain ⟨j, hj, hless⟩ := h.flush_moves hpe
        (fun j hj => hbusy j (by omega)) (hflushes m hm hflush k hk)
      exact ⟨j, hj, .inr hless⟩
  exact hno

theorem flushRun : Fair twoNodes (Cluster.play twoNodes Cluster.flushRun)
    fun n => Cluster.flushRun[n]? := by
  obtain ⟨t, ht, hquiet⟩ := of_check (P := fun t : Cluster ℕ => t.Quiet twoNodes)
    (o := run twoNodes Cluster.flushRun (Cluster.start twoNodes)) (by decide +kernel)
  exact play ht hquiet

theorem flushRun_calls :
    ∀ m ≥ 54, ∀ ev, Cluster.flushRun[m]? = some ev → ev.isCall = false := by
  intro m hm ev hev
  have hall : ∀ ev ∈ Cluster.flushRun.drop 54, ev.isCall = false := by decide +kernel
  apply hall
  obtain ⟨k, rfl⟩ := Nat.exists_eq_add_of_le hm
  rw [← List.getElem?_drop] at hev
  exact List.mem_of_getElem? hev

/-- The flush of PE 0 returns. -/
theorem returns_flushRun :
    ∃ m > 54, (Cluster.play twoNodes Cluster.flushRun m).taskOf twoNodes 0 = .idle := by
  have htask : (Cluster.play twoNodes Cluster.flushRun 54).taskOf twoNodes 0 = .flushLocal 0 := by
    decide +kernel
  apply returns flushRun
  · decide
  · rw [htask]
    exact nofun
  · rw [htask]
    exact nofun

section Quiet

variable (hcalls : ∀ m ≥ n, ∀ ev, e m = some ev → ev.isCall = false)
include hcalls

/-- No PE begins anything. -/
theorem left_le (h : Fair cfg σ e) {m : ℕ} (hm : n ≤ m) (pe : ℕ) :
    (σ (m + 1)).taskOf cfg pe = (σ m).taskOf cfg pe ∨
      ((σ (m + 1)).taskOf cfg pe).left cfg < ((σ m).taskOf cfg pe).left cfg := by
  obtain ⟨done, hs⟩ := h.sound m
  rcases h.next m with ⟨-, hsame⟩ | ⟨ev, hev, hstep⟩
  · rw [hsame]
    exact .inl rfl
  · exact step_left hs hstep (.inl (hcalls m hm ev hev))

/-- PEs do not stay where they are for ever. -/
theorem moves (h : Fair cfg σ e) (hpos : 0 < cfg.bufSize) :
    ∃ m ≥ n, (∀ pe < cfg.allPes, (σ m).taskOf cfg pe = .idle) ∨
      ∃ pe < cfg.allPes, (σ (m + 1)).taskOf cfg pe ≠ (σ m).taskOf cfg pe := by
  by_contra hstay
  push Not at hstay
  have hsame : ∀ m ≥ n, ∀ pe < cfg.allPes, (σ m).taskOf cfg pe = (σ n).taskOf cfg pe := by
    intro m hm pe hpe
    induction m, hm using Nat.le_induction with
    | base => rfl
    | succ m hm ih => exact ((hstay m hm).2 pe hpe).trans ih
  obtain ⟨pe, hpe, hbusy⟩ := (hstay n le_rfl).1
  obtain ⟨m, hm, hidle | hturn⟩ := h.turns pe hpe n
  · exact hbusy ((hsame m hm pe hpe).symm.trans hidle)
  obtain ⟨done, hs⟩ := h.sound m
  rcases h.next m with ⟨hnone, -⟩ | ⟨ev, hev, hstep⟩
  · rw [hturn] at hnone
    cases hnone
  rw [hturn] at hev
  cases hev
  rcases turn_left hs hstep with ⟨d, hat⟩ | hless
  · -- it waits for others in a shared buffer to which no call comes any more
    rw [hsame m hm pe hpe] at hat
    have hn := ClusterConfig.nodeOf_lt hpe
    have hr := cfg.rankOf_lt pe
    have hpe' := cfg.nodeOf_rankOf pe
    have hd : d < cfg.numNodes := by
      obtain ⟨done, hs⟩ := h.sound n
      exact ((hs.node _ hn).worker _).inRange d hat
    obtain ⟨k, hk, hall⟩ := PP.Fair.all_idle (n := n) (fun k hk => by
      rcases h.next k with ⟨-, hsame⟩ | ⟨ev, hev, hstep⟩
      · left
        rw [hsame]
      · obtain ⟨done, hs⟩ := h.sound k
        exact step_shared_of_left hs hstep (hcalls k hk ev hev)
          (fun q hq => by rw [(hstay k hk).2 q hq]) _ _) (h.shared hn hd) hpos
    have hrest := (h.rests hn hd hr).mp (hall k le_rfl _)
    rw [hpe', hsame k hk pe hpe] at hrest
    exact hrest hat
  · rw [(hstay m hm).2 pe hpe] at hless
    exact lt_irrefl _ hless

/-- All calls come to their end. -/
theorem all_return (h : Fair cfg σ e) (hpos : 0 < cfg.bufSize) :
    ∃ m ≥ n, ∀ pe < cfg.allPes, (σ m).taskOf cfg pe = .idle := by
  have hle : ∀ m ≥ n, ∀ pe, ((σ (m + 1)).taskOf cfg pe).left cfg ≤
      ((σ m).taskOf cfg pe).left cfg := by
    intro m hm pe
    rcases h.left_le hcalls hm pe with hsame | hless
    · rw [hsame]
    · exact hless.le
  apply FairRun.drops σ (fun s => ∀ pe < cfg.allPes, s.taskOf cfg pe = .idle)
    (fun s => ∑ pe ∈ range cfg.allPes, (s.taskOf cfg pe).left cfg)
  · exact fun m hm => sum_le_sum fun pe _ => hle m hm pe
  · intro m hm
    obtain ⟨k, hk, hidle | ⟨pe, hpe, hne⟩⟩ :=
      moves (n := m) (fun k hk => hcalls k (hm.trans hk)) h hpos
    · exact ⟨k, hk, .inl hidle⟩
    · refine ⟨k, hk, .inr (sum_lt_sum (fun q _ => hle k (hm.trans hk) q) ⟨pe, ?_⟩)⟩
      exact ⟨mem_range.mpr hpe, (h.left_le hcalls (hm.trans hk) pe).resolve_left hne⟩

end Quiet

/-- When all PEs have returned and make no more calls, only messages arrive. -/
theorem next_idle (h : Fair cfg σ e) {m : ℕ}
    (hcalls : ∀ ev, e m = some ev → ev.isCall = false)
    (hidle : ∀ pe < cfg.allPes, (σ m).taskOf cfg pe = .idle) :
    (∀ pe < cfg.allPes, (σ (m + 1)).taskOf cfg pe = .idle) ∧
      (e m = none ∧ σ (m + 1) = σ m ∨ (σ (m + 1)).weight cfg < (σ m).weight cfg) := by
  rcases h.next m with ⟨hnone, hsame⟩ | ⟨ev, hev, hstep⟩
  · exact ⟨fun pe hpe => by rw [hsame, hidle pe hpe], .inl ⟨hnone, hsame⟩⟩
  cases ev with
  | insert | flush => cases hcalls _ hev
  | turn pe =>
    simp only [Cluster.step, Option.ite_none_right_eq_some, Option.map_eq_some_iff] at hstep
    obtain ⟨hpe, res, hturn, -⟩ := hstep
    have htask := hidle pe hpe
    unfold taskOf at htask
    simp [Host.turn, htask] at hturn
  | deliver k skip =>
    obtain ⟨m, hk, harrive⟩ := Option.bind_eq_some_iff.mp hstep
    refine ⟨fun pe hpe => ?_, .inr (arrive_weight hk harrive)⟩
    exact (arrive_taskOf harrive pe).trans (hidle pe hpe)

/-- From some moment on nothing happens, no call is running, and no message is in flight. -/
theorem rests_for_ever (h : Fair cfg σ e) (hpos : 0 < cfg.bufSize)
    (hcalls : ∀ m ≥ n, ∀ ev, e m = some ev → ev.isCall = false) :
    ∃ m ≥ n, (σ m).Quiet cfg ∧ ∀ k ≥ m, e k = none ∧ σ k = σ m := by
  obtain ⟨m, hm, hidle⟩ := h.all_return hcalls hpos
  have hrest : ∀ k ≥ m, ∀ pe < cfg.allPes, (σ k).taskOf cfg pe = .idle := by
    intro k hk
    induction k, hk using Nat.le_induction with
    | base => exact hidle
    | succ k hk ih => exact (h.next_idle (hcalls k (hm.trans hk)) ih).1
  have hnext : ∀ k ≥ m, e k = none ∧ σ (k + 1) = σ k ∨
      (σ (k + 1)).weight cfg < (σ k).weight cfg :=
    fun k hk => (h.next_idle (hcalls k (hm.trans hk)) (hrest k hk)).2
  have hempty : ∃ k ≥ m, (σ k).flight = [] := by
    apply FairRun.drops σ (fun s => s.flight = []) (Cluster.weight cfg)
    · intro k hk
      rcases hnext k hk with ⟨-, hsame⟩ | hless
      · rw [hsame]
      · exact hless.le
    · intro k hk
      obtain ⟨j, hj, hnone | ⟨i, skip, harrives⟩⟩ := h.arrives k
      · exact ⟨j, hj, .inl hnone⟩
      · refine ⟨j, hj, .inr ((hnext j (hk.trans hj)).resolve_left ?_)⟩
        simp [harrives]
  obtain ⟨k, hk, hflight⟩ := hempty
  refine ⟨k, hm.trans hk, ⟨hflight, hrest k hk⟩, fun j hj => ?_⟩
  have hsame : σ j = σ k := by
    induction j, hj using Nat.le_induction with
    | base => rfl
    | succ j hj ih =>
      rcases hnext j (hk.trans hj) with ⟨-, hsame⟩ | hless
      · exact hsame.trans ih
      · simp [ih, Cluster.weight, Net.total, hflight] at hless
  refine ⟨?_, hsame⟩
  rcases hnext j (hk.trans hj) with ⟨hnone, -⟩ | hless
  · exact hnone
  · simp [hsame, Cluster.weight, Net.total, hflight] at hless

omit [Inhabited α] in
/-- What is inserted and which PEs have flushed does not change without calls. -/
theorem before_calls (hcalls : ∀ m ≥ n, ∀ ev, e m = some ev → ev.isCall = false) {m : ℕ}
    (hm : n ≤ m) : inserted (before e m) = inserted (before e n) ∧
      flushed (before e m) = flushed (before e n) := by
  induction m, hm using Nat.le_induction with
  | base => exact ⟨rfl, rfl⟩
  | succ m hm ih =>
    have hcall := hcalls m hm
    unfold inserted flushed at ih ⊢
    rw [before_succ, List.map_append, List.sum_append, List.foldl_append, ih.1, ih.2]
    cases he : e m with
    | none => exact ⟨add_zero _, rfl⟩
    | some ev =>
      have hcall := hcall ev he
      cases ev with
      | insert | flush => cases hcall
      | turn | deliver => exact ⟨add_zero _, rfl⟩

/-- When the clients make no more calls, nothing happens from some moment on. Every item that was
    inserted then waits on its node or has been handed over. -/
theorem quiesces (h : Fair cfg σ e) (hpos : 0 < cfg.bufSize)
    (hcalls : ∀ m ≥ n, ∀ ev, e m = some ev → ev.isCall = false) :
    ∃ m ≥ n, (σ m).Quiet cfg ∧ inserted (before e n) = (σ m).waiting cfg + (σ m).handed cfg ∧
      ∀ k ≥ m, e k = none ∧ σ k = σ m := by
  obtain ⟨m, hm, hquiet, hrest⟩ := h.rests_for_ever hpos hcalls
  refine ⟨m, hm, hquiet, ?_, hrest⟩
  rw [← (before_calls hcalls hm).1]
  exact run_quiet (h.run_before m) hquiet

theorem quiesces_flushRun : ∃ m ≥ 54, (Cluster.play twoNodes Cluster.flushRun m).Quiet twoNodes ∧
    inserted (before (fun n => Cluster.flushRun[n]?) 54) =
      (Cluster.play twoNodes Cluster.flushRun m).waiting twoNodes +
        (Cluster.play twoNodes Cluster.flushRun m).handed twoNodes ∧
    ∀ k ≥ m, Cluster.flushRun[k]? = none ∧
      Cluster.play twoNodes Cluster.flushRun k = Cluster.play twoNodes Cluster.flushRun m :=
  quiesces flushRun (by decide) flushRun_calls

/-- When the clients make no more calls and every PE flushed after its last insert, every client
    is handed all its items in the end, and `onBufferCount` gets 0 from then on. -/
theorem delivers (h : Fair cfg σ e) (hpos : 0 < cfg.bufSize)
    (hcalls : ∀ m ≥ n, ∀ ev, e m = some ev → ev.isCall = false)
    (hflushed : ∀ pe < cfg.allPes, pe ∈ flushed (before e n)) :
    ∃ m ≥ n, ∀ k ≥ m, (σ k).Quiet cfg ∧ (σ k).bufferCount cfg = 0 ∧
      ∀ pe < cfg.allPes,
        ((σ k).delivered cfg pe : Multiset α) = forPe pe (inserted (before e n)) := by
  obtain ⟨m, hm, hquiet, hrest⟩ := h.rests_for_ever hpos hcalls
  obtain ⟨hinserted, hsame⟩ := before_calls hcalls hm
  obtain ⟨hcount, hall⟩ := run_drained hpos (h.run_before m) hquiet (by rwa [hsame])
  refine ⟨m, hm, fun k hk => ?_⟩
  rw [(hrest k hk).2, ← hinserted]
  exact ⟨hquiet, hcount, hall⟩

theorem delivers_flushRun : ∃ m ≥ 54, ∀ k ≥ m,
    (Cluster.play twoNodes Cluster.flushRun k).Quiet twoNodes ∧
      (Cluster.play twoNodes Cluster.flushRun k).bufferCount twoNodes = 0 ∧
      ∀ pe < twoNodes.allPes,
        ((Cluster.play twoNodes Cluster.flushRun k).delivered twoNodes pe : Multiset ℕ) =
          forPe pe (inserted (before (fun n => Cluster.flushRun[n]?) 54)) :=
  delivers flushRun (by decide) flushRun_calls (by decide +kernel)

end Fair

end Cluster

end PP

end Htram
