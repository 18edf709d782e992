import Htram.Pp.Drained

/-!
# What an event does to the calls

An event of one PE leaves the calls of the others as they are, and takes its own call on, unless it
waits in one of the functions for a shared buffer. What the PEs of a node share for another takes
one step at most.

* `Cluster.step_shared`, `Cluster.turn_shared`: what is shared.
* `Cluster.step_left`, `Cluster.turn_left`: what is left of a call.
* `Cluster.step_entered`: a PE that flushes waits for no slots.
-/

namespace Htram

namespace PP

open Finset Network RankSort

variable {α : Type*} {cfg : ClusterConfig}

/-! ## What is left of a call -/

/-- Falls with every step of a call but for those in the functions for a shared buffer. -/
def Task.left (cfg : ClusterConfig) : Task → ℕ
  | .idle => 0
  | .copying _ => 3 * cfg.numNodes + 4
  | .flushLocal d => cfg.numNodes - d + (2 * cfg.numNodes + 3)
  | .flushShared d => 2 * (cfg.numNodes - d) + 2
  | .shipping d => 2 * (cfg.numNodes - d) + 1

/-- A PE that flushes has less left than one that copies. -/
theorem Task.left_lt {t : Task} : t.left cfg < 3 * cfg.numNodes + 4 ↔ ∀ d, t ≠ .copying d := by
  cases t
  case copying d => simp [left]
  all_goals
    simp only [left, ne_eq, reduceCtorEq, not_false_eq_true, implies_true, iff_true]
    omega

/-- Messages that arrive on its account. -/
def Packet.weight (cfg : ClusterConfig) : Packet α → ℕ
  | .post _ => 1
  | _ => cfg.numPes + 1

/-- A client makes a call. -/
def Event.isCall : Event α → Bool
  | .insert .. | .flush _ => true
  | _ => false

/-- Only a call begins to wait for slots. -/
theorem Node.run_entered {ncfg : NodeConfig} {s : Node α} {p : ℕ}
    (hno : ∀ items, s.pc p ≠ .claim items) : ∀ items, (s.run ncfg p).pc p ≠ .claim items := by
  unfold run
  cases hpc : s.pc p <;> rw [hpc] at hno <;> dsimp only
  case clear role j => cases role <;> split_ifs <;> simp [goto, Role.ships]
  all_goals
    (try split_ifs) <;> (try split) <;> simp_all [goto, setMessage, Role.ships]

namespace Host

variable {n r d : ℕ} {done : Set ℕ} {h : Host α}

/-- What an access leaves of the call. -/
theorem access_task (cfg : ClusterConfig) (r d : ℕ) (w : Worker α) (h : Host α) :
    ((h.access cfg r d w).1.worker r).task = (h.worker r).task ∨
      ((h.access cfg r d w).1.worker r).task = w.task := by
  rw [access_eq]
  show ((h.setWorker r _).worker r).task = _ ∨ ((h.setWorker r _).worker r).task = _
  rw [setWorker_self]
  split_ifs
  · exact .inr rfl
  · exact .inl rfl

theorem access_others (cfg : ClusterConfig) {q r : ℕ} (hq : q ≠ r) (d : ℕ) (w : Worker α)
    (h : Host α) : (h.access cfg r d w).1.worker q = h.worker q := by
  rw [access_eq]
  exact setWorker_of_ne h hq _

theorem turned_others {res : Host α × List (Packet α)} (hturn : Turned cfg r h res) {q : ℕ}
    (hq : q ≠ r) : res.1.worker q = h.worker q := by
  cases hturn with
  | copies => exact access_others cfg hq _ _ h
  | ships => exact access_others cfg hq _ _ h
  | empties | emptied | looks | looked => exact setWorker_of_ne h hq _

/-- A PE goes on, or is in one of the functions for a shared buffer. -/
theorem turned_left (hs : h.Sound cfg n done) {res : Host α × List (Packet α)}
    (hturn : Turned cfg r h res) :
    (res.1.worker r).task = (h.worker r).task ∧ (∃ d, (h.worker r).task.At d) ∨
      (res.1.worker r).task.left cfg < (h.worker r).task.left cfg := by
  cases hturn with
  | @copies d htask =>
    refine (access_task cfg r d _ h).imp (fun hsame => ⟨hsame, d, .inl htask⟩) fun hleft => ?_
    rw [hleft, htask]
    exact Nat.succ_pos _
  | @ships d htask =>
    have hd := (hs.worker r).inRange d (.inr htask)
    refine (access_task cfg r d _ h).imp (fun hsame => ⟨hsame, d, .inr htask⟩) fun hleft => ?_
    rw [hleft, htask]
    simp only [Task.left]
    omega
  | @empties d htask hd | @emptied d htask hd | @looks d htask hd | @looked d htask hd =>
    right
    show ((h.setWorker r _).worker r).task.left cfg < _
    rw [setWorker_self, htask]
    simp only [Task.left]
    omega

/-- A turn in one of the functions for a shared buffer is an access, and another turn is at most
    the begin of one of them. -/
theorem turned_shared {res : Host α × List (Packet α)} (hturn : Turned cfg r h res) (e : ℕ) :
    (h.worker r).task.At e ∧ res.1.shared e = (h.shared e).run cfg.toNodeConfig r ∨
      ¬ (h.worker r).task.At e ∧ (res.1.shared e = h.shared e ∨
        (h.worker r).task = .flushShared e ∧ res.1.shared e = (h.shared e).goto r .check) := by
  have haccess : ∀ {d : ℕ} {w : Worker α}, (h.worker r).task.At d →
      (h.worker r).task.At e ∧
          (h.access cfg r d w).1.shared e = (h.shared e).run cfg.toNodeConfig r ∨
        ¬ (h.worker r).task.At e ∧ (h.access cfg r d w).1.shared e = h.shared e := by
    intro d w hat
    rw [access_eq]
    by_cases he : e = d
    · subst he
      exact .inl ⟨hat, setShared_self ..⟩
    · exact .inr ⟨fun hate => he (hate.unique hat), setShared_of_ne _ he _⟩
  cases hturn with
  | copies htask => exact (haccess (.inl htask)).imp_right fun ⟨hno, hsame⟩ => ⟨hno, .inl hsame⟩
  | ships htask => exact (haccess (.inr htask)).imp_right fun ⟨hno, hsame⟩ => ⟨hno, .inl hsame⟩
  | empties htask | emptied htask | looked htask =>
    exact .inr ⟨by simp [htask, Task.At], .inl rfl⟩
  | @looks d htask hd =>
    right
    refine ⟨by simp [htask, Task.At], ?_⟩
    by_cases he : e = d
    · subst he
      exact .inr ⟨htask, setShared_self ..⟩
    · exact .inl (setShared_of_ne _ he _)

/-- An item that fills `local_buf` begins a copy. -/
theorem insertValue_shared (hs : h.Sound cfg n done) (hr : r < cfg.numPes)
    (hidle : (h.worker r).task = .idle) (x : ItemT α) {e : ℕ} (he : e < cfg.numNodes) :
    (h.insertValue x d r).shared e = h.shared e ∨
      Node.Step cfg.toNodeConfig (h.shared e) ((h.insertValue x d r).shared e) := by
  rw [insertValue_eq hs hidle x rfl]
  split_ifs with hfull
  · by_cases hed : e = d
    · subst hed
      right
      rw [setShared_self]
      exact .copy hr (hs.rests he (by simp [hidle, Task.At])) hfull
    · exact .inl (setShared_of_ne _ hed _)
  · exact .inl rfl

theorem insertValue_others (x : ItemT α) (d : ℕ) {q : ℕ} (hq : q ≠ r) :
    (h.insertValue x d r).worker q = h.worker q := by
  unfold insertValue
  dsimp only
  split_ifs
  all_goals exact setWorker_of_ne h hq _

theorem hand_task (r : ℕ) (items : List α) (h : Host α) (q : ℕ) :
    ((h.hand r items).worker q).task = (h.worker q).task := by
  unfold hand
  by_cases hq : q = r
  · subst hq
    rw [setWorker_self]
  · rw [setWorker_of_ne h hq]

/-! ## A flush waits for no slots -/

/-- No PE that flushes waits for slots. -/
def Entered (h : Host α) : Prop :=
  ∀ r d, (h.worker r).task = .shipping d → ∀ items, (h.shared d).pc r ≠ .claim items

theorem Entered.setWorker (hh : h.Entered) {w : Worker α} (hw : ∀ d, w.task ≠ .shipping d) :
    (h.setWorker r w).Entered := by
  intro q d htask
  by_cases hq : q = r
  · subst hq
    rw [setWorker_self] at htask
    exact absurd htask (hw d)
  · rw [setWorker_of_ne h hq] at htask
    exact hh q d htask

theorem Entered.setShared (hh : h.Entered) {s : Node α}
    (hs : ∀ q, (h.worker q).task = .shipping d → ∀ items, s.pc q ≠ .claim items) :
    (h.setShared d s).Entered := by
  intro q e htask
  by_cases he : e = d
  · subst he
    rw [setShared_self]
    exact hs q htask
  · rw [setShared_of_ne h he]
    exact hh q e htask

theorem Entered.access (hh : h.Entered) {w : Worker α} (hw : ∀ d, w.task ≠ .shipping d) :
    (h.access cfg r d w).1.Entered := by
  have hruns : ∀ q, (h.worker q).task = .shipping d →
      ∀ items, ((h.shared d).run cfg.toNodeConfig r).pc q ≠ .claim items := by
    intro q htask
    by_cases hq : q = r
    · subst hq
      exact Node.run_entered (hh q d htask)
    · rw [Node.run_pc _ _ hq]
      exact hh q d htask
  rw [access_eq]
  split_ifs
  · apply (hh.setWorker hw).setShared
    intro q htask
    by_cases hq : q = r
    · subst hq
      rw [setWorker_self] at htask
      exact absurd htask (hw d)
    · rw [setWorker_of_ne h hq] at htask
      exact hruns q htask
  · have hself : h.setWorker r (h.worker r) = h := by
      unfold Host.setWorker
      rw [Function.update_eq_self]
    rw [hself]
    exact hh.setShared hruns

theorem Entered.turned (hh : h.Entered) {res : Host α × List (Packet α)}
    (hturn : Turned cfg r h res) : res.1.Entered := by
  cases hturn with
  | copies => exact hh.access (by simp)
  | ships => exact hh.access (by simp)
  | empties | emptied | looked => exact hh.setWorker (by simp)
  | @looks d htask hd =>
    intro q e
    by_cases hq : q = r
    · subst hq
      show ((h.setWorker q _).worker q).task = _ → _
      rw [setWorker_self]
      intro he
      cases he
      rw [setShared_self]
      simp [Node.goto]
    · show ((h.setWorker r _).worker q).task = _ → _
      rw [setWorker_of_ne h hq]
      intro hship
      by_cases hed : e = d
      · subst hed
        rw [setShared_self]
        show ∀ items, Function.update (h.shared e).pc r _ q ≠ _
        rw [Function.update_of_ne hq]
        exact hh q e hship
      · rw [setShared_of_ne _ hed]
        exact hh q e hship

theorem Entered.insertValue (hh : h.Entered) (hidle : (h.worker r).task = .idle) (x : ItemT α)
    (d : ℕ) : (h.insertValue x d r).Entered := by
  unfold Host.insertValue
  dsimp only
  generalize (if ((h.worker r).localBuf d).length ≤ localBufSize - 1 then
    (h.worker r).localBuf d ++ [x] else (h.worker r).localBuf d) = buf
  split_ifs
  · apply Entered.setShared
    · exact hh.setWorker (by simp)
    · intro q htask
      by_cases hq : q = r
      · subst hq
        rw [setWorker_self] at htask
        cases htask
      · rw [setWorker_of_ne h hq] at htask
        show ∀ items, Function.update (h.shared d).pc r _ q ≠ _
        rw [Function.update_of_ne hq]
        exact hh q d htask
  · exact hh.setWorker (by simp [hidle])

theorem Entered.hand (hh : h.Entered) (r : ℕ) (items : List α) : (h.hand r items).Entered := by
  intro q d htask
  rw [hand_task] at htask
  exact hh q d htask

end Host

namespace Cluster

variable [Inhabited α] {s t : Cluster α} {done : Set ℕ} {ev : Event α} {n d r pe : ℕ}

/-- In which call PE `pe` is. -/
def taskOf (cfg : ClusterConfig) (s : Cluster α) (pe : ℕ) : Task :=
  ((s.node (cfg.nodeOf pe)).worker (cfg.rankOf pe)).task

omit [Inhabited α] in
theorem taskOf_eq (s : Cluster α) (hr : r < cfg.numPes) :
    s.taskOf cfg (n * cfg.numPes + r) = ((s.node n).worker r).task := by
  obtain ⟨hnode, hrank⟩ := cfg.pe_unique (n := n) hr rfl
  unfold taskOf
  rw [← hnode, ← hrank]

/-- Messages that arrive on account of those in flight. -/
def weight (cfg : ClusterConfig) (s : Cluster α) : ℕ := s.total 0 (fun _ => 0) (Packet.weight cfg)

/-! ## One event -/

theorem arrive_shared {m : Packet α} {skip : Bool} (harrive : arrive cfg skip s m = some t)
    (n d : ℕ) : (t.node n).shared d = (s.node n).shared d := by
  cases m with
  | shared d' msg =>
    obtain ⟨items, -, rfl⟩ := Option.map_eq_some_iff.mp harrive
    rfl
  | small d' items =>
    cases harrive
    rfl
  | post p =>
    cases harrive
    by_cases hn : n = cfg.nodeOf p.pe
    · subst hn
      rw [Net.set_node_self]
      rfl
    · rw [Net.set_node_of_ne _ hn]

theorem arrive_taskOf {m : Packet α} {skip : Bool} (harrive : arrive cfg skip s m = some t)
    (pe : ℕ) : t.taskOf cfg pe = s.taskOf cfg pe := by
  cases m with
  | shared d msg =>
    obtain ⟨items, -, rfl⟩ := Option.map_eq_some_iff.mp harrive
    rfl
  | small d items =>
    cases harrive
    rfl
  | post p =>
    cases harrive
    unfold taskOf
    by_cases hn : cfg.nodeOf pe = cfg.nodeOf p.pe
    · rw [hn, Net.set_node_self, Host.hand_task]
    · rw [Net.set_node_of_ne _ hn]

/-- An event is a step of what the PEs of a node share for another, or leaves it alone. -/
theorem step_shared (hs : s.Sound cfg done) (hstep : step cfg s ev = some t)
    (n : ℕ) (hd : d < cfg.numNodes) :
    (t.node n).shared d = (s.node n).shared d ∨
      Node.Step cfg.toNodeConfig ((s.node n).shared d) ((t.node n).shared d) := by
  have hset : ∀ {m : ℕ} {h : Host α}, (n = m → h.shared d = (s.node m).shared d ∨
      Node.Step cfg.toNodeConfig ((s.node m).shared d) (h.shared d)) →
      ((Net.set s m h).node n).shared d = (s.node n).shared d ∨
        Node.Step cfg.toNodeConfig ((s.node n).shared d) (((Net.set s m h).node n).shared d) := by
    intro m h hh
    by_cases hm : n = m
    · have hh := hh hm
      subst hm
      rwa [Net.set_node_self]
    · rw [Net.set_node_of_ne s hm]
      exact .inl rfl
  cases ev with
  | insert pe x =>
    simp only [step, Option.ite_none_right_eq_some, Option.some.injEq] at hstep
    obtain ⟨⟨hpe, hx, hidle⟩, rfl⟩ := hstep
    apply hset
    intro _
    exact Host.insertValue_shared (hs.node _ (ClusterConfig.nodeOf_lt hpe)) (cfg.rankOf_lt pe)
      hidle x hd
  | flush pe =>
    simp only [step, Option.ite_none_right_eq_some, Option.some.injEq] at hstep
    obtain ⟨-, rfl⟩ := hstep
    exact hset fun _ => .inl rfl
  | turn pe =>
    simp only [step, Option.ite_none_right_eq_some, Option.map_eq_some_iff] at hstep
    obtain ⟨hpe, res, hturn, rfl⟩ := hstep
    have hnode := hs.node _ (ClusterConfig.nodeOf_lt hpe)
    apply hset
    intro _
    rcases Host.turned_shared (Host.turned_of_turn hturn) d with
      ⟨-, hrun⟩ | ⟨hno, hsame | ⟨-, hflush⟩⟩
    · rw [hrun]
      exact .inr (.run (cfg.rankOf_lt pe))
    · exact .inl hsame
    · rw [hflush]
      exact .inr (.flush (cfg.rankOf_lt pe) (hnode.rests hd hno))
  | deliver k skip =>
    obtain ⟨m, -, harrive⟩ := Option.bind_eq_some_iff.mp hstep
    exact .inl (arrive_shared harrive n d)

/-- The turn of a PE that is in one of the functions for the buffer is an access. -/
theorem turn_shared (hstep : step cfg s (.turn (n * cfg.numPes + r)) = some t)
    (hr : r < cfg.numPes) (hat : (s.taskOf cfg (n * cfg.numPes + r)).At d) :
    (t.node n).shared d = ((s.node n).shared d).run cfg.toNodeConfig r := by
  obtain ⟨hnode, hrank⟩ := cfg.pe_unique (n := n) hr rfl
  simp only [step, Option.ite_none_right_eq_some, Option.map_eq_some_iff] at hstep
  obtain ⟨-, res, hturn, rfl⟩ := hstep
  rw [← hnode, ← hrank] at hturn
  rw [taskOf_eq s hr] at hat
  rw [← hnode]
  rcases Host.turned_shared (Host.turned_of_turn hturn) d with ⟨-, hrun⟩ | ⟨hno, -⟩
  · rw [Net.emit_node, Net.set_node_self]
    exact hrun
  · exact absurd hat hno

/-- Without a call of its client, a PE goes on, or stays where it is. -/
theorem step_left (hs : s.Sound cfg done) (hstep : step cfg s ev = some t)
    (hcall : ev.isCall = false ∨ s.taskOf cfg pe ≠ .idle) :
    t.taskOf cfg pe = s.taskOf cfg pe ∨
      (t.taskOf cfg pe).left cfg < (s.taskOf cfg pe).left cfg := by
  have hset : ∀ {pe' : ℕ} {h : Host α},
      (cfg.nodeOf pe = cfg.nodeOf pe' → (h.worker (cfg.rankOf pe)).task = s.taskOf cfg pe ∨
        (h.worker (cfg.rankOf pe)).task.left cfg < (s.taskOf cfg pe).left cfg) →
      taskOf cfg (Net.set s (cfg.nodeOf pe') h) pe = s.taskOf cfg pe ∨
        (taskOf cfg (Net.set s (cfg.nodeOf pe') h) pe).left cfg <
          (s.taskOf cfg pe).left cfg := by
    intro pe' h hh
    by_cases hn : cfg.nodeOf pe = cfg.nodeOf pe'
    · have hh := hh hn
      unfold taskOf at hh ⊢
      rw [← hn, Net.set_node_self]
      exact hh
    · left
      unfold taskOf
      rw [Net.set_node_of_ne s hn]
  -- a PE in a call makes no other
  have hrank : ∀ {pe'}, ev.isCall = true → s.taskOf cfg pe' = .idle →
      cfg.nodeOf pe = cfg.nodeOf pe' → cfg.rankOf pe ≠ cfg.rankOf pe' := by
    intro pe' hyes hidle hn hr
    rcases hcall with hno | hbusy
    · rw [hyes] at hno
      cases hno
    · apply hbusy
      unfold taskOf at hidle ⊢
      rw [hn, hr, hidle]
  cases ev with
  | insert pe' x =>
    simp only [step, Option.ite_none_right_eq_some, Option.some.injEq] at hstep
    obtain ⟨⟨hpe, hx, hidle⟩, rfl⟩ := hstep
    apply hset
    intro hn
    rw [Host.insertValue_others x _ (hrank rfl hidle hn), ← hn]
    exact .inl rfl
  | flush pe' =>
    simp only [step, Option.ite_none_right_eq_some, Option.some.injEq] at hstep
    obtain ⟨⟨hpe, hidle⟩, rfl⟩ := hstep
    apply hset
    intro hn
    rw [Host.setWorker_of_ne _ (hrank rfl hidle hn), ← hn]
    exact .inl rfl
  | turn pe' =>
    simp only [step, Option.ite_none_right_eq_some, Option.map_eq_some_iff] at hstep
    obtain ⟨hpe, res, hturn, rfl⟩ := hstep
    have hturned := Host.turned_of_turn hturn
    apply hset
    intro hn
    unfold taskOf
    rw [hn]
    by_cases hr : cfg.rankOf pe = cfg.rankOf pe'
    · rw [hr]
      exact (Host.turned_left (hs.node _ (ClusterConfig.nodeOf_lt hpe)) hturned).imp_left And.left
    · rw [Host.turned_others hturned hr]
      exact .inl rfl
  | deliver k skip =>
    obtain ⟨m, -, harrive⟩ := Option.bind_eq_some_iff.mp hstep
    exact .inl (arrive_taskOf harrive pe)

/-- A PE that gets its turn is in one of the functions for a shared buffer, or goes on. -/
theorem turn_left (hs : s.Sound cfg done) (hstep : step cfg s (.turn pe) = some t) :
    (∃ d, (s.taskOf cfg pe).At d) ∨ (t.taskOf cfg pe).left cfg < (s.taskOf cfg pe).left cfg := by
  simp only [step, Option.ite_none_right_eq_some, Option.map_eq_some_iff] at hstep
  obtain ⟨hpe, res, hturn, rfl⟩ := hstep
  unfold taskOf
  rw [Net.emit_node, Net.set_node_self]
  exact (Host.turned_left (hs.node _ (ClusterConfig.nodeOf_lt hpe))
    (Host.turned_of_turn hturn)).imp_left And.right

/-- An event that leaves every PE where it is, is an access to what is shared, or leaves it
    alone. -/
theorem step_shared_of_left (hs : s.Sound cfg done) (hstep : step cfg s ev = some t)
    (hcall : ev.isCall = false)
    (hsame : ∀ pe < cfg.allPes, (s.taskOf cfg pe).left cfg ≤ (t.taskOf cfg pe).left cfg)
    (n d : ℕ) : (t.node n).shared d = (s.node n).shared d ∨
      ∃ r < cfg.numPes, (t.node n).shared d = ((s.node n).shared d).run cfg.toNodeConfig r := by
  cases ev with
  | insert | flush => cases hcall
  | turn pe =>
    simp only [step, Option.ite_none_right_eq_some, Option.map_eq_some_iff] at hstep
    obtain ⟨hpe, res, hturn, rfl⟩ := hstep
    have hturned := Host.turned_of_turn hturn
    have hsame := hsame pe hpe
    unfold taskOf at hsame
    rw [Net.emit_node] at hsame ⊢
    by_cases hn : n = cfg.nodeOf pe
    · subst hn
      rw [Net.set_node_self] at hsame ⊢
      rcases Host.turned_shared hturned d with ⟨-, hrun⟩ | ⟨-, heq | ⟨htask, -⟩⟩
      · exact .inr ⟨_, cfg.rankOf_lt pe, hrun⟩
      · exact .inl heq
      · rcases Host.turned_left (hs.node _ (ClusterConfig.nodeOf_lt hpe)) hturned with
          ⟨-, e, hat⟩ | hless
        · rw [htask] at hat
          rcases hat with hat | hat <;> cases hat
        · exact absurd hless (not_lt.mpr hsame)
    · rw [Net.set_node_of_ne s hn]
      exact .inl rfl
  | deliver k skip =>
    obtain ⟨m, -, harrive⟩ := Option.bind_eq_some_iff.mp hstep
    exact .inl (arrive_shared harrive n d)

/-- No PE that flushes waits for slots. -/
def Entered (s : Cluster α) : Prop := ∀ n, (s.node n).Entered

omit [Inhabited α] in
theorem Entered.set (hh : s.Entered) {h : Host α} (hnode : h.Entered) :
    Entered (Net.set s n h) := by
  intro m
  by_cases hm : m = n
  · rw [hm, Net.set_node_self]
    exact hnode
  · rw [Net.set_node_of_ne s hm]
    exact hh m

theorem step_entered (hh : s.Entered) (hstep : step cfg s ev = some t) : t.Entered := by
  cases ev with
  | insert pe x =>
    simp only [step, Option.ite_none_right_eq_some, Option.some.injEq] at hstep
    obtain ⟨⟨-, -, hidle⟩, rfl⟩ := hstep
    exact hh.set ((hh _).insertValue hidle x _)
  | flush pe =>
    simp only [step, Option.ite_none_right_eq_some, Option.some.injEq] at hstep
    obtain ⟨-, rfl⟩ := hstep
    exact hh.set ((hh _).setWorker (by simp))
  | turn pe =>
    simp only [step, Option.ite_none_right_eq_some, Option.map_eq_some_iff] at hstep
    obtain ⟨-, res, hturn, rfl⟩ := hstep
    exact hh.set ((hh _).turned (Host.turned_of_turn hturn))
  | deliver k skip =>
    obtain ⟨m, -, harrive⟩ := Option.bind_eq_some_iff.mp hstep
    cases m with
    | shared d msg =>
      obtain ⟨items, -, rfl⟩ := Option.map_eq_some_iff.mp harrive
      exact hh
    | small d items =>
      cases harrive
      exact hh
    | post p =>
      cases harrive
      exact Entered.set (s := Net.take s k) hh ((hh _).hand _ _)

/-! ## Messages that arrive -/

theorem arrive_weight {k : ℕ} {m : Packet α} {skip : Bool} (hk : s.flight[k]? = some m)
    (harrive : arrive cfg skip (Net.take s k) m = some t) : t.weight cfg < s.weight cfg := by
  have htake := Net.total_take (n := 0) (w := fun _ => 0) (v := Packet.weight cfg) hk
  have hsorts : ∀ (d : ℕ) (xs : List (ItemT α)),
      ((sorts cfg skip d xs).map (Packet.weight cfg)).sum < cfg.numPes + 1 := by
    intro d xs
    have hone : ∀ l : List (Post α),
        ((l.map Packet.post).map (Packet.weight cfg)).sum = l.length := by
      intro l
      induction l with
      | nil => rfl
      | cons p l ih =>
        rw [List.map_cons, List.map_cons, List.sum_cons, ih, List.length_cons, Nat.add_comm]
        rfl
    unfold sorts HTramRecv.post
    rw [hone, List.length_map]
    have hle := List.length_filter_le (fun r => !(skip && tally (cfg.node d).rank
      (xs.map ItemT.item) r = 0)) (List.range (cfg.node d).size)
    rw [List.length_range] at hle
    exact Nat.lt_succ_of_le hle
  have hemit : ∀ (d : ℕ) (xs : List (ItemT α)), m.weight cfg = cfg.numPes + 1 →
      weight cfg (Net.emit (Net.take s k) (sorts cfg skip d xs)) < s.weight cfg := by
    intro d xs hm
    have hsum := Net.total_emit (n := 0) (w := fun _ => 0) (v := Packet.weight cfg)
      (s := Net.take s k) (sorts cfg skip d xs)
    have hless := hsorts d xs
    rw [hm] at htake
    unfold weight
    omega
  cases m with
  | shared d msg =>
    obtain ⟨items, -, rfl⟩ := Option.map_eq_some_iff.mp harrive
    exact hemit d items rfl
  | small d items =>
    cases harrive
    exact hemit d items rfl
  | post p =>
    cases harrive
    exact Nat.lt_of_succ_le htake.le

end Cluster

end PP

end Htram
