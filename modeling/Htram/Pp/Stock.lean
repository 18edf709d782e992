import Htram.Pp.Hosts
import Mathlib.Tactic.Abel

/-!
# The items of a node

The items that wait on a node, in `local_buf` or in the shared buffers, and those that its clients
have been handed, as one multiset, and what an event does to it.

* `sorts_items`: what a node posts is what it received.
* `Host.insertValue_items`, `Host.turned_items`, `Host.hand_items`: the events.
-/

namespace Htram

namespace PP

open Finset Network SlotBlocks RankSort

variable {α : Type*} {cfg : ClusterConfig}

/-! ## Where items can be -/

/-- The items in `local_buf`, except for those that have come to `copyToNodeBuf`. -/
def Worker.buffered (cfg : ClusterConfig) (w : Worker α) : Multiset (ItemT α) :=
  ∑ d ∈ range cfg.numNodes, if w.task = .copying d then 0 else (w.localBuf d : Multiset (ItemT α))

/-- What the client has been handed, as items for the PE. -/
def Worker.handed (w : Worker α) : Multiset (ItemT α) :=
  (w.delivered.map (ItemT.mk w.myPe) : List (ItemT α))

/-- The items that have come to `copyToNodeBuf` and have not left. -/
def Node.waiting (cfg : NodeConfig) (s : Node α) : Multiset (ItemT α) :=
  s.current cfg + s.unwritten cfg

namespace Host

/-- The items that wait on a node. -/
def waiting (cfg : ClusterConfig) (h : Host α) : Multiset (ItemT α) :=
  ∑ r ∈ range cfg.numPes, (h.worker r).buffered cfg +
    ∑ d ∈ range cfg.numNodes, (h.shared d).waiting cfg.toNodeConfig

/-- The items that the clients of a node have been handed. -/
def handed (cfg : ClusterConfig) (h : Host α) : Multiset (ItemT α) :=
  ∑ r ∈ range cfg.numPes, (h.worker r).handed

/-- All items of a node. -/
def items (cfg : ClusterConfig) (h : Host α) : Multiset (ItemT α) := h.waiting cfg + h.handed cfg

end Host

/-- The items of a message in flight. -/
def Packet.items (cfg : ClusterConfig) : Packet α → Multiset (ItemT α)
  | .shared _ m => ((loaded m.received).getD [] : List (ItemT α))
  | .small _ xs => (xs : List (ItemT α))
  | .post p => ((posted cfg p).map (ItemT.mk p.pe) : List (ItemT α))

/-! ## Messages -/

theorem loaded_map_some (xs : List (ItemT α)) : loaded (xs.map some) = some xs := by
  induction xs with
  | nil => rfl
  | cons x xs ih => simp [loaded, ih]

theorem exists_map_some {β : Type*} {l : List (Option β)} (h : ∀ o ∈ l, o ≠ none) :
    ∃ xs : List β, l = xs.map some := by
  induction l with
  | nil => exact ⟨[], rfl⟩
  | cons o l ih =>
    obtain ⟨xs, rfl⟩ := ih fun o' ho' => h o' (List.mem_cons_of_mem _ ho')
    obtain ⟨x, rfl⟩ := Option.ne_none_iff_exists'.mp (h o List.mem_cons_self)
    exact ⟨x :: xs, rfl⟩

/-- A message that left has all its slots written. -/
theorem Shipment.Whole.loads {ncfg : NodeConfig} {e : Shipment α} (h : e.Whole ncfg) :
    ∃ xs, loaded e.msg.received = some xs ∧ (xs : Multiset (ItemT α)) = e.items ncfg := by
  have hreceived := h.received
  obtain ⟨xs, hxs⟩ : ∃ xs : List (ItemT α), e.msg.received = xs.map some := by
    apply exists_map_some
    rintro o ho rfl
    rw [← Multiset.mem_coe, hreceived, Multiset.mem_map] at ho
    obtain ⟨x, -, hx⟩ := ho
    cases hx
  rw [hxs]
  refine ⟨xs, loaded_map_some xs, ?_⟩
  rw [hxs, ← Multiset.map_coe] at hreceived
  exact Multiset.map_injective (Option.some_injective _) hreceived

/-- The items of a message for node `d` that are for its PE `r`. -/
theorem posted_items [Inhabited α] {d r : ℕ} (hr : r < cfg.numPes) {xs : List (ItemT α)}
    (hxs : ∀ x ∈ xs, cfg.nodeOf x.destPe = d) :
    Packet.items cfg (.post ⟨(cfg.node d).first + r,
        HTramRecv.sort (cfg.node d) xs.length (xs.map ItemT.item)⟩) =
      (ofRank (fun x => x.destPe - (cfg.node d).first) xs r : Multiset (ItemT α)) := by
  have hmine : ∀ x ∈ xs, (cfg.node d).first ≤ x.destPe ∧
      x.destPe < (cfg.node d).first + cfg.numPes := by
    intro x hx
    have hd := hxs x hx
    unfold ClusterConfig.nodeOf at hd
    rw [Nat.div_eq_iff cfg.hasPes] at hd
    unfold ClusterConfig.node
    dsimp only
    omega
  have howns : ∀ x ∈ xs.map ItemT.item, (cfg.node d).Owns x.destPe := by
    intro y hy
    obtain ⟨x, hx, rfl⟩ := List.mem_map.mp hy
    exact hmine x hx
  have hrank : cfg.rankOf ((cfg.node d).first + r) = r := by
    unfold ClusterConfig.rankOf ClusterConfig.node
    dsimp only
    rw [Nat.mul_comm, Nat.mul_add_mod, Nat.mod_eq_of_lt hr]
  have hslice : (HTramRecv.sort (cfg.node d) xs.length (xs.map ItemT.item)).receivePerPE r =
      HTramRecv.forPe (xs.map ItemT.item) ((cfg.node d).first + r) :=
    HTramRecv.sort_receivePerPE howns (by simp) hr
  unfold Packet.items posted
  dsimp only
  rw [hrank, hslice]
  have hsame : ∀ x ∈ xs, decide (x.destPe = (cfg.node d).first + r) =
      decide (x.destPe - (cfg.node d).first = r) := by
    intro x hx
    have := hmine x hx
    rw [decide_eq_decide]
    omega
  have hself : ∀ x ∈ xs.filter (fun x => x.destPe = (cfg.node d).first + r),
      ItemT.mk ((cfg.node d).first + r) x.payload = x := by
    intro x hx
    rw [← of_decide_eq_true (List.mem_filter.mp hx).2]
  unfold HTramRecv.forPe ofRank
  rw [List.filter_map, List.map_map, List.map_map, ← List.filter_congr hsame]
  exact congrArg _ ((List.map_congr_left hself).trans (List.map_id _))

/-- Sorting a message neither loses nor doubles an item. -/
theorem sorts_items [Inhabited α] (skip : Bool) {d : ℕ}
    {xs : List (ItemT α)} (hxs : ∀ x ∈ xs, cfg.nodeOf x.destPe = d) :
    ((Cluster.sorts cfg skip d xs).map (Packet.items cfg)).sum = (xs : Multiset (ItemT α)) := by
  let rank : ItemT α → ℕ := fun x => x.destPe - (cfg.node d).first
  -- a PE without items is left out or posted to, and adds nothing
  have hskip : ∀ l : List ℕ, (∀ r ∈ l, r < cfg.numPes) →
      (((l.filter fun r => !(skip && tally (cfg.node d).rank (xs.map ItemT.item) r = 0)).map
        fun r => Packet.items cfg (.post ⟨(cfg.node d).first + r,
          HTramRecv.sort (cfg.node d) xs.length (xs.map ItemT.item)⟩)).sum) =
        (l.flatMap (ofRank rank xs) : List (ItemT α)) := by
    intro l
    induction l with
    | nil => intro _; rfl
    | cons r l ih =>
      intro hl
      have ih := ih fun r' h => hl r' (List.mem_cons_of_mem _ h)
      rw [List.filter_cons, List.flatMap_cons, ← Multiset.coe_add, ← ih]
      split_ifs with hkeep
      · rw [List.map_cons, List.sum_cons, posted_items (hl r List.mem_cons_self) hxs]
      · have h0 : tally (cfg.node d).rank (xs.map ItemT.item) r = 0 := by
          simp at hkeep
          exact hkeep.2
        have hnone : ofRank rank xs r = [] := by
          rw [tally_eq, RankSort.size, List.countP_map] at h0
          rw [← List.length_eq_zero_iff, length_ofRank]
          exact h0
        rw [hnone, Multiset.coe_nil, zero_add]
  have hall := hskip (List.range cfg.numPes) fun _ => List.mem_range.mp
  unfold Cluster.sorts HTramRecv.post
  rw [List.map_map, List.map_map]
  refine hall.trans ?_
  rw [Multiset.coe_eq_coe]
  apply gather_perm
  intro x hx
  have hd := hxs x hx
  unfold ClusterConfig.nodeOf at hd
  rw [Nat.div_eq_iff cfg.hasPes] at hd
  have hpes := cfg.hasPes
  show x.destPe - d * cfg.numPes < cfg.numPes
  omega

/-! ## One access -/

namespace Node

theorem run_sent (ncfg : NodeConfig) (s : Node α) (p : ℕ) : s.sent <+: (s.run ncfg p).sent := by
  unfold run
  cases hpc : s.pc p <;> dsimp only <;> (try split_ifs) <;> (try split) <;>
    simp [goto, setMessage]

/-- A PE comes to `copyToNodeBuf`. -/
theorem copy_waiting {ncfg : NodeConfig} {s : Node α} {p : ℕ} (hp : p < ncfg.numPes)
    (hidle : s.pc p = .idle) (items log : List (ItemT α)) :
    ({ s with log := log : Node α }.goto p (.claim items)).waiting ncfg =
      s.waiting ncfg + (items : Multiset (ItemT α)) := by
  have hsum : ({ s with log := log : Node α }.goto p (.claim items)).unwritten ncfg +
      (s.pc p).unwritten = s.unwritten ncfg + (Pc.claim items).unwritten :=
    unwritten_update hp rfl
  have hnone : (s.pc p).unwritten = 0 := by rw [hidle]; rfl
  rw [hnone, add_zero] at hsum
  unfold waiting
  rw [hsum, add_assoc]
  rfl

/-- A PE looks at the buffer. -/
theorem check_waiting {ncfg : NodeConfig} {s : Node α} {p : ℕ} (hp : p < ncfg.numPes)
    (hidle : s.pc p = .idle) : (s.goto p .check).waiting ncfg = s.waiting ncfg := by
  have hsame : (s.goto p .check).unwritten ncfg = s.unwritten ncfg :=
    unwritten_eq hp rfl (by rw [hidle]; rfl)
  exact congrArg (s.current ncfg + ·) hsame

/-- What leaves with an access no longer waits. -/
theorem run_waiting {s : Node α} {p : ℕ} (hreach : Reachable cfg.toNodeConfig s)
    (hp : p < cfg.numPes) (d : ℕ) :
    (s.run cfg.toNodeConfig p).waiting cfg.toNodeConfig +
      ((((s.run cfg.toNodeConfig p).sent.drop s.sent.length).map fun e =>
        Packet.shared d e.msg).map (Packet.items cfg)).sum = s.waiting cfg.toNodeConfig := by
  have hg := Shipped.of_reachable hreach
  have hg' := Shipped.of_reachable (hreach.tail (.run hp))
  obtain ⟨new, hnew⟩ := run_sent cfg.toNodeConfig s p
  have hitems : ∀ e ∈ new, Packet.items cfg (.shared d e.msg) = e.items cfg.toNodeConfig := by
    intro e he
    obtain ⟨xs, hxs, hsame⟩ := (hg'.whole e (hnew ▸ List.mem_append_right _ he)).loads
    unfold Packet.items
    dsimp only
    rw [hxs, Option.getD_some, hsame]
  have hlog := hg'.account
  rw [run_log, hg.account, ← hnew, List.map_append, List.sum_append] at hlog
  rw [← hnew, List.drop_left, List.map_map, Function.comp_def, List.map_congr_left hitems]
  unfold waiting
  simp only [add_assoc] at hlog
  have hcancel := add_left_cancel hlog
  rw [hcancel]
  abel

/-- What leaves is a message of items that have come to `copyToNodeBuf`. -/
theorem run_sends {s : Node α} {p : ℕ} (hreach : Reachable cfg.toNodeConfig s)
    (hp : p < cfg.numPes) {e : Shipment α}
    (he : e ∈ (s.run cfg.toNodeConfig p).sent.drop s.sent.length) :
    ∃ xs, loaded e.msg.received = some xs ∧ ∀ x ∈ xs, x ∈ s.log := by
  have hg' := Shipped.of_reachable (hreach.tail (.run hp))
  have hmem := List.mem_of_mem_drop he
  obtain ⟨xs, hxs, hsame⟩ := (hg'.whole e hmem).loads
  refine ⟨xs, hxs, fun x hx => ?_⟩
  have hle : e.items cfg.toNodeConfig ≤
      ((s.run cfg.toNodeConfig p).sent.map (Shipment.items cfg.toNodeConfig)).sum :=
    List.single_le_sum (fun _ _ => Multiset.zero_le _) _ (List.mem_map_of_mem hmem)
  have hlog : x ∈ ((s.run cfg.toNodeConfig p).log : Multiset (ItemT α)) := by
    rw [hg'.account, add_assoc]
    apply Multiset.mem_add.mpr
    left
    apply Multiset.mem_of_le hle
    rw [← hsame]
    exact hx
  rw [run_log] at hlog
  exact hlog

end Node

namespace Host

variable {n r d : ℕ} {done : Set ℕ} {h : Host α} {w : Worker α}

/-! ## No event loses or doubles an item -/

theorem waiting_setWorker (hr : r < cfg.numPes) (h : Host α) (w : Worker α) :
    (h.setWorker r w).waiting cfg + (h.worker r).buffered cfg =
      h.waiting cfg + w.buffered cfg := by
  have hsum := Rows.sum_update (Worker.buffered cfg) h.worker hr w
  unfold waiting setWorker
  dsimp only
  rw [add_right_comm, hsum, add_right_comm]

theorem handed_setWorker (hr : r < cfg.numPes) (h : Host α) (w : Worker α) :
    (h.setWorker r w).handed cfg + (h.worker r).handed = h.handed cfg + w.handed :=
  Rows.sum_update Worker.handed h.worker hr w

theorem waiting_setShared (hd : d < cfg.numNodes) (h : Host α) (s : Node α) :
    (h.setShared d s).waiting cfg + (h.shared d).waiting cfg.toNodeConfig =
      h.waiting cfg + s.waiting cfg.toNodeConfig := by
  have hsum := Rows.sum_update (Node.waiting cfg.toNodeConfig) h.shared hd s
  unfold waiting setShared
  dsimp only
  rw [add_assoc, hsum, add_assoc]

/-- PE `r` loses `lost` and gets `got` in its `local_buf`, and hands over `given`. -/
theorem items_setWorker (hr : r < cfg.numPes) (lost got given : Multiset (ItemT α))
    (hbuffered : w.buffered cfg + lost = (h.worker r).buffered cfg + got)
    (hhanded : w.handed = (h.worker r).handed + given) :
    (h.setWorker r w).items cfg + lost = h.items cfg + got + given := by
  have hwait := waiting_setWorker hr h w
  have hhand := handed_setWorker hr h w
  apply add_right_cancel (b := (h.worker r).buffered cfg + (h.worker r).handed)
  unfold items
  calc _ = ((h.setWorker r w).waiting cfg + (h.worker r).buffered cfg) +
        ((h.setWorker r w).handed cfg + (h.worker r).handed) + lost := by abel
    _ = h.waiting cfg + (w.buffered cfg + lost) + h.handed cfg + w.handed := by
      rw [hwait, hhand]
      abel
    _ = _ := by
      rw [hbuffered, hhanded]
      abel

theorem items_same (hr : r < cfg.numPes) (hbuffered : w.buffered cfg = (h.worker r).buffered cfg)
    (hhanded : w.handed = (h.worker r).handed) : (h.setWorker r w).items cfg = h.items cfg := by
  have hsame := items_setWorker (h := h) (w := w) hr 0 0 0 (by rw [hbuffered])
    (by rw [hhanded, add_zero])
  simpa using hsame

theorem items_setShared (hd : d < cfg.numNodes) (h : Host α) (s : Node α) :
    (h.setShared d s).items cfg + (h.shared d).waiting cfg.toNodeConfig =
      h.items cfg + s.waiting cfg.toNodeConfig := by
  have hwait := waiting_setShared hd h s
  unfold items
  rw [add_right_comm, hwait, add_right_comm]
  rfl

theorem buffered_idle (cfg : ClusterConfig) (hno : ∀ d, w.task ≠ .copying d) :
    w.buffered cfg = ∑ d ∈ range cfg.numNodes, (w.localBuf d : Multiset (ItemT α)) :=
  sum_congr rfl fun d _ => if_neg (hno d)

/-- The items of a call of `copyToNodeBuf` are no longer counted in `local_buf`. -/
theorem buffered_copying (hcopies : w.task = .copying d) :
    w.buffered cfg =
      ∑ e ∈ range cfg.numNodes, (Function.update w.localBuf d [] e : Multiset (ItemT α)) := by
  refine sum_congr rfl fun e _ => ?_
  by_cases he : e = d
  · rw [he, Function.update_self, if_pos hcopies, Multiset.coe_nil]
  · rw [Function.update_of_ne he, if_neg fun h' => he (by rw [hcopies] at h'; cases h'; rfl)]

/-- `local_buf` for node `d` gets other items. -/
theorem sum_localBuf (hd : d < cfg.numNodes) (buf : ℕ → List (ItemT α)) (xs : List (ItemT α)) :
    ∑ e ∈ range cfg.numNodes, (Function.update buf d xs e : Multiset (ItemT α)) +
        (buf d : Multiset (ItemT α)) =
      ∑ e ∈ range cfg.numNodes, (buf e : Multiset (ItemT α)) + (xs : Multiset (ItemT α)) :=
  Rows.sum_update (fun l : List (ItemT α) => (l : Multiset (ItemT α))) buf hd xs

theorem insertValue_items (hs : h.Sound cfg n done) (hr : r < cfg.numPes) (hd : d < cfg.numNodes)
    (hidle : (h.worker r).task = .idle) (x : ItemT α) :
    (h.insertValue x d r).items cfg = h.items cfg + {x} := by
  have hbuffered := buffered_idle cfg (w := h.worker r) (by simp [hidle])
  rw [insertValue_eq hs hidle x rfl]
  split_ifs with hfull
  · -- the items of `local_buf` wait for the shared buffer
    have hrests := hs.rests (r := r) hd (by simp [hidle, Task.At])
    have hempty := sum_localBuf hd (h.worker r).localBuf []
    have hcopying : { h.worker r with
        localBuf := Function.update (h.worker r).localBuf d ((h.worker r).localBuf d ++ [x])
        task := .copying d : Worker α }.buffered cfg = ∑ e ∈ range cfg.numNodes,
          (Function.update (h.worker r).localBuf d [] e : Multiset (ItemT α)) := by
      rw [buffered_copying rfl]
      dsimp only
      rw [Function.update_idem]
    rw [← hbuffered, ← hcopying] at hempty
    have hset := items_setWorker (h := h) hr _ 0 0 hempty (add_zero _).symm
    have hshared := items_setShared hd (h.setWorker r { h.worker r with
        localBuf := Function.update (h.worker r).localBuf d ((h.worker r).localBuf d ++ [x])
        task := .copying d })
      ({ h.shared d with
        log := (h.shared d).log ++ ((h.worker r).localBuf d ++ [x]) : Node α }.goto r
          (.claim ((h.worker r).localBuf d ++ [x])))
    rw [Node.copy_waiting hr hrests, ← Multiset.coe_add, Multiset.coe_singleton] at hshared
    rw [add_zero, add_zero] at hset
    apply add_right_cancel (b := (h.shared d).waiting cfg.toNodeConfig)
    refine hshared.trans ?_
    rw [← hset]
    abel
  · have hput := sum_localBuf hd (h.worker r).localBuf ((h.worker r).localBuf d ++ [x])
    have hidle' : { h.worker r with
        localBuf := Function.update (h.worker r).localBuf d ((h.worker r).localBuf d ++ [x]) :
          Worker α }.buffered cfg = ∑ e ∈ range cfg.numNodes, (Function.update
            (h.worker r).localBuf d ((h.worker r).localBuf d ++ [x]) e : Multiset (ItemT α)) :=
      buffered_idle cfg (by simp [hidle])
    rw [← hbuffered, ← hidle'] at hput
    have hset := items_setWorker (h := h) hr _ _ 0 hput (add_zero _).symm
    rw [← Multiset.coe_add, Multiset.coe_singleton, add_zero] at hset
    apply add_right_cancel (b := ((h.worker r).localBuf d : Multiset (ItemT α)))
    rw [hset]
    abel

/-- An access of PE `r`, which becomes `w` when it has returned. -/
theorem access_items (hs : h.Sound cfg n done) (hr : r < cfg.numPes) (hat : (h.worker r).task.At d)
    (hbuffered : w.buffered cfg = (h.worker r).buffered cfg)
    (hhanded : w.handed = (h.worker r).handed) :
    (h.access cfg r d w).1.items cfg + ((h.access cfg r d w).2.map (Packet.items cfg)).sum =
      h.items cfg := by
  have hd := (hs.worker r).inRange d hat
  have hrun := Node.run_waiting (hs.reachable hd) hr d
  have hworker : ∀ w' : Worker α, w'.buffered cfg = (h.worker r).buffered cfg →
      w'.handed = (h.worker r).handed →
      ((h.setWorker r w').setShared d ((h.shared d).run cfg.toNodeConfig r)).items cfg +
        ((h.access cfg r d w).2.map (Packet.items cfg)).sum = h.items cfg := by
    intro w' hbuffered hhanded
    have hshared := items_setShared hd (h.setWorker r w') ((h.shared d).run cfg.toNodeConfig r)
    rw [items_same hr hbuffered hhanded] at hshared
    apply add_right_cancel (b := (h.shared d).waiting cfg.toNodeConfig)
    calc
      _ = h.items cfg + ((h.shared d).run cfg.toNodeConfig r).waiting cfg.toNodeConfig +
          ((h.access cfg r d w).2.map (Packet.items cfg)).sum := by
        rw [← hshared, add_right_comm]
        rfl
      _ = _ := by
        rw [add_assoc]
        exact congrArg _ hrun
  rw [access_eq]
  split_ifs
  · exact hworker w hbuffered hhanded
  · exact hworker _ rfl rfl

theorem buffered_go {t : Task} (hfrom : ∀ d, w.task ≠ .copying d) (hto : ∀ d, t ≠ .copying d) :
    { w with task := t : Worker α }.buffered cfg = w.buffered cfg := by
  rw [buffered_idle cfg hfrom]
  exact buffered_idle cfg hto

/-- A PE that copies nothing goes on. -/
theorem items_idle (hr : r < cfg.numPes) {t : Task} (hfrom : ∀ d, (h.worker r).task ≠ .copying d)
    (hto : ∀ d, t ≠ .copying d) :
    (h.setWorker r { h.worker r with task := t }).items cfg = h.items cfg :=
  items_same hr (buffered_go hfrom hto) rfl

theorem turned_items (hs : h.Sound cfg n done) (hr : r < cfg.numPes)
    {res : Host α × List (Packet α)} (hturn : Turned cfg r h res) :
    res.1.items cfg + (res.2.map (Packet.items cfg)).sum = h.items cfg := by
  cases hturn with
  | @copies d htask =>
    apply access_items hs hr (.inl htask)
    · rw [buffered_copying htask]
      exact buffered_idle cfg (by simp)
    · rfl
  | @empties d htask hd =>
    have hempty := sum_localBuf hd (h.worker r).localBuf []
    have hbuffered := buffered_idle cfg (w := h.worker r) (by simp [htask])
    rw [← hbuffered] at hempty
    rw [List.map_singleton, List.sum_singleton]
    have hidle : { h.worker r with
        localBuf := Function.update (h.worker r).localBuf d []
        task := .flushLocal (d + 1) : Worker α }.buffered cfg =
          ∑ e ∈ range cfg.numNodes,
            (Function.update (h.worker r).localBuf d [] e : Multiset (ItemT α)) :=
      buffered_idle cfg (by simp)
    rw [← hidle] at hempty
    have hset := items_setWorker (h := h) hr _ 0 0 hempty (add_zero _).symm
    rwa [add_zero, add_zero] at hset
  | @emptied d htask hd =>
    rw [List.map_nil, List.sum_nil, add_zero]
    exact items_idle hr (by simp [htask]) (by simp)
  | @looks d htask hd =>
    have hrests := hs.rests (r := r) hd (by simp [htask, Task.At])
    have hsame := items_idle (h := h) (t := .shipping d) hr (by simp [htask]) (by simp)
    have hshared := items_setShared hd
      (h.setWorker r { h.worker r with task := .shipping d }) ((h.shared d).goto r .check)
    rw [Node.check_waiting hr hrests, hsame] at hshared
    rw [List.map_nil, List.sum_nil, add_zero]
    exact add_right_cancel hshared
  | @looked d htask hd =>
    rw [List.map_nil, List.sum_nil, add_zero]
    exact items_idle hr (by simp [htask]) (by simp)
  | @ships d htask =>
    exact access_items hs hr (.inr htask) (buffered_go (by simp [htask]) (by simp)) rfl

theorem hand_items (hr : r < cfg.numPes) (h : Host α) (xs : List α) :
    (h.hand r xs).items cfg =
      h.items cfg + (xs.map (ItemT.mk (h.worker r).myPe) : List (ItemT α)) := by
  have hhanded : { h.worker r with
      delivered := (h.worker r).delivered ++ xs
      totRecvCount := (h.worker r).totRecvCount + xs.length : Worker α }.handed =
        (h.worker r).handed + (xs.map (ItemT.mk (h.worker r).myPe) : List (ItemT α)) := by
    unfold Worker.handed
    rw [List.map_append, Multiset.coe_add]
  have hset := items_setWorker (h := h) hr 0 0 _ (by exact rfl) hhanded
  rwa [add_zero, add_zero] at hset


end Host

end PP

end Htram
