import Htram.System.Events

/-!
# What holds of the whole system

* `System.step_sound`: an event keeps the books of every PE and the items of every message
  where they belong, and a PE is handed its own items only.
* `Packet.arrived`: what the messages that a node posts carry is what the message that it
  received carried.
* `HTram.outgoing_sum`: what a call sends is what its destinations have sent since.
-/

namespace Htram

open Network RankSort

variable {α F : Type*}

/-! ## What a call sends -/

theorem mem_outgoing {cfg : Config α} {p q : HTram α F} {m : Packet α} :
    m ∈ p.outgoing cfg q ↔ ∃ d < p.destCount cfg,
      ∃ s ∈ (q.dest d).sent.drop (p.dest d).sent.length, m = .buffer d s := by
  unfold HTram.outgoing
  rw [List.mem_flatMap]
  simp only [List.mem_range, List.mem_map]
  constructor
  · rintro ⟨d, hd, s, hs, rfl⟩
    exact ⟨d, hd, s, hs, rfl⟩
  · rintro ⟨d, hd, s, hs, rfl⟩
    exact ⟨d, hd, s, hs, rfl⟩

/-- What is summed over all that the destinations have sent grows by what the call sends. -/
theorem HTram.outgoing_sum {M : Type*} [AddCommMonoid M] {cfg : Config α} {p q : HTram α F}
    (hgrown : ∀ d < p.destCount cfg, (p.dest d).sent <+: (q.dest d).sent) (v : Packet α → M) :
    ∑ d ∈ Finset.range (p.destCount cfg), ((q.dest d).sent.map fun s => v (.buffer d s)).sum =
      ∑ d ∈ Finset.range (p.destCount cfg), ((p.dest d).sent.map fun s => v (.buffer d s)).sum +
        ((p.outgoing cfg q).map v).sum := by
  unfold outgoing
  generalize p.destCount cfg = n at hgrown ⊢
  induction n with
  | zero => simp
  | succ n ih =>
    have hsplit := List.prefix_iff_eq_append.mp (hgrown n (Nat.lt_succ_self n))
    have hlast : ((q.dest n).sent.map fun s => v (.buffer n s)).sum =
        ((p.dest n).sent.map fun s => v (.buffer n s)).sum +
          (((q.dest n).sent.drop (p.dest n).sent.length).map fun s => v (.buffer n s)).sum := by
      rw [← List.sum_append, ← List.map_append, hsplit]
    rw [Finset.sum_range_succ, Finset.sum_range_succ, List.range_succ, List.flatMap_append,
      List.flatMap_singleton, List.map_append, List.sum_append, List.map_map, Function.comp_def,
      ih fun d hd => hgrown d (Nat.lt_succ_of_lt hd), hlast]
    abel

/-! ## What a node posts -/

namespace Config

theorem node_owns {cfg : Config α} (hsize : 0 < cfg.nodeSize) {d pe : ℕ} :
    (cfg.node d).Owns pe ↔ cfg.nodeOf pe = d := by
  unfold Node.Owns node nodeOf
  rw [Nat.div_eq_iff hsize]
  dsimp only
  omega

theorem rankOf_node {cfg : Config α} {d r : ℕ} (hr : r < cfg.nodeSize) :
    cfg.rankOf ((cfg.node d).first + r) = r := by
  unfold rankOf node
  dsimp only
  rw [Nat.mul_comm, Nat.mul_add_mod, Nat.mod_eq_of_lt hr]

/-- A node's PEs are among all PEs. -/
theorem node_pe {cfg : Config α} {d r : ℕ} (hd : d < cfg.numNodes) (hr : r < cfg.nodeSize) :
    (cfg.node d).first + r < cfg.numPes := by
  have := Nat.mul_le_mul_right cfg.nodeSize (Nat.succ_le_of_lt hd)
  unfold node numPes
  dsimp only
  rw [Nat.succ_mul] at this
  omega

end Config

/-- The item goes by way of node `d`. -/
theorem here_node {cfg : Config α} {agg : Agg} (hagg : agg ≠ .WW) {d : ℕ} {y : α} :
    cfg.Here agg d y ↔ cfg.nodeOf (cfg.getDestProc y) = d := by
  unfold Config.Here Config.destOf
  rw [if_neg hagg]

section Posts

variable [Inhabited α] {cfg : Config α} {d : ℕ} {m : HTramMessage α}

omit [Inhabited α] in
theorem HTramMessage.Whole.received {own : α → Prop} (hm : m.Whole cfg own) :
    m.received = m.items := by
  unfold HTramMessage.received
  rw [← hm.written, List.take_length]

omit [Inhabited α] in
theorem HTramMessage.Whole.owns (hsize : 0 < cfg.nodeSize)
    (hm : m.Whole cfg fun y => cfg.nodeOf (cfg.getDestProc y) = d) :
    ∀ x ∈ m.items, (cfg.node d).Owns x.destPe := by
  intro x hx
  obtain ⟨haddr, hown⟩ := hm.owned x hx
  rw [Config.node_owns hsize, haddr]
  exact hown

/-- A posted message: the PE it is for and the items that the PE is handed. -/
theorem mem_receive (hsize : 0 < cfg.nodeSize)
    (hm : m.Whole cfg fun y => cfg.nodeOf (cfg.getDestProc y) = d) {skip : Bool} {p : Post α} :
    p ∈ HTramRecv.receive (cfg.node d) skip m → ∃ r < cfg.nodeSize,
      p.pe = (cfg.node d).first + r ∧
        p.items cfg = (ofRank (cfg.node d).rank m.items r).map Item.payload ∧
        p.count cfg = (p.items cfg).length := by
  intro hp
  have howns := hm.owns hsize
  unfold HTramRecv.receive at hp
  rw [hm.received] at hp
  obtain ⟨r, hr, -, rfl⟩ := HTramRecv.mem_post.mp hp
  have hr : r < (cfg.node d).size := hr
  obtain ⟨hlo, hhi⟩ := HTramRecv.sort_limits howns hm.written.le hr
  have hitems : (⟨(cfg.node d).first + r, HTramRecv.sort (cfg.node d) m.next m.items⟩ :
      Post α).items cfg = (ofRank (cfg.node d).rank m.items r).map Item.payload := by
    unfold Post.items
    rw [Config.rankOf_node hr, HTramRecv.sort_receivePerPE howns hm.written.le hr,
      HTramRecv.ofRank_rank howns]
  refine ⟨r, hr, rfl, hitems, ?_⟩
  rw [hitems, List.length_map, length_ofRank]
  unfold Post.count
  rw [Config.rankOf_node hr, hlo, hhi, first_succ]
  omega

/-- The posted messages carry what the message received carried. -/
theorem receive_items (hsize : 0 < cfg.nodeSize)
    (hm : m.Whole cfg fun y => cfg.nodeOf (cfg.getDestProc y) = d) (skip : Bool) :
    ((HTramRecv.receive (cfg.node d) skip m).flatMap (Post.items cfg)).Perm
      (m.items.map Item.payload) := by
  have howns := hm.owns hsize
  have hpost : ∀ r ∈ List.range (cfg.node d).size,
      (⟨(cfg.node d).first + r, HTramRecv.sort (cfg.node d) m.next m.items⟩ : Post α).items cfg =
        (ofRank (cfg.node d).rank m.items r).map Item.payload := by
    intro r hr
    have hr := List.mem_range.mp hr
    unfold Post.items
    rw [Config.rankOf_node hr, HTramRecv.sort_receivePerPE howns hm.written.le hr,
      HTramRecv.ofRank_rank howns]
  -- a rank without items is left out or posted to, and adds nothing
  have hskip : ∀ l : List ℕ, (∀ r ∈ l, r ∈ List.range (cfg.node d).size) →
      ((l.filter fun r => !(skip && tally (cfg.node d).rank m.items r = 0)).flatMap fun r =>
        (⟨(cfg.node d).first + r, HTramRecv.sort (cfg.node d) m.next m.items⟩ :
          Post α).items cfg) = (l.flatMap (ofRank (cfg.node d).rank m.items)).map Item.payload := by
    intro l
    induction l with
    | nil => intro _; rfl
    | cons r l ih =>
      intro hl
      have ih := ih fun r' h => hl r' (List.mem_cons_of_mem _ h)
      rw [List.filter_cons, List.flatMap_cons, List.map_append, ← ih]
      split_ifs with hkeep
      · rw [List.flatMap_cons, hpost r (hl r (List.mem_cons_self ..))]
      · have h0 : tally (cfg.node d).rank m.items r = 0 := by simp at hkeep; exact hkeep.2
        rw [tally_eq, ← length_ofRank, List.length_eq_zero_iff] at h0
        rw [h0, List.map_nil, List.nil_append]
  unfold HTramRecv.receive HTramRecv.post
  rw [hm.received, List.flatMap_map, hskip _ fun r h => h]
  exact (gather_perm _ (HTramRecv.rank_lt howns)).map _

end Posts

/-! ## The invariant -/

/-- A PE in mode `agg`, which has been handed its own items only. -/
structure Branch.Sound (cfg : Config α) (agg : Agg) (combining : Bool) (pe : ℕ)
    (b : Branch α F) : Prop where
  books : b.tram.Books cfg agg combining
  mine : ∀ y ∈ b.delivered, cfg.getDestProc y = pe

/-- A message for one of the destinations, with items that go there. -/
def Packet.Sound [Inhabited α] (cfg : Config α) (agg : Agg) : Packet α → Prop
  | .buffer d s => d < cfg.destCount agg ∧ s.entry = agg.entry ∧ s.msg.Whole cfg (cfg.Here agg d)
  | .post p => ∃ d < cfg.numNodes, ∃ (skip : Bool) (m : HTramMessage α),
      m.Whole cfg (fun y => cfg.nodeOf (cfg.getDestProc y) = d) ∧
        p ∈ HTramRecv.receive (cfg.node d) skip m

namespace Packet

variable [Inhabited α] {cfg : Config α} {agg : Agg}

/-- What a sorted message hands over. -/
theorem Sound.post {p : Post α} (hsize : 0 < cfg.nodeSize)
    (hp : (Packet.post p).Sound cfg agg) :
    p.pe < cfg.numPes ∧ (∀ y ∈ p.items cfg, cfg.getDestProc y = p.pe) ∧
      p.count cfg = (p.items cfg).length := by
  obtain ⟨d, hd, skip, m, hm, hmem⟩ := hp
  obtain ⟨r, hr, hpe, hitems, hcount⟩ := mem_receive hsize hm hmem
  refine ⟨hpe ▸ Config.node_pe hd hr, fun y hy => ?_, hcount⟩
  rw [hitems] at hy
  obtain ⟨x, hx, rfl⟩ := List.mem_map.mp hy
  obtain ⟨hx, hrank⟩ := List.mem_filter.mp hx
  have howns := hm.owns hsize x hx
  have hrank : x.destPe - (cfg.node d).first = r := of_decide_eq_true hrank
  rw [← (hm.owned x hx).1, hpe]
  unfold Node.Owns at howns
  omega

/-- What a buffer carries, under `WPs` and under `WW`. -/
theorem Sound.buffer {d : ℕ} {s : Sent α} (hp : (Packet.buffer d s).Sound cfg agg) :
    (agg = .WW → d < cfg.numPes ∧ s.entry = .receiveOnPE ∧
      ∀ x ∈ s.msg.items, cfg.getDestProc x.payload = d) ∧
    (agg ≠ .WW → d < cfg.numNodes ∧ s.entry = .receive ∧
      s.msg.Whole cfg fun y => cfg.nodeOf (cfg.getDestProc y) = d) := by
  obtain ⟨hd, hentry, hm⟩ := hp
  unfold Agg.entry at hentry
  constructor
  · rintro rfl
    refine ⟨hd, hentry, fun x hx => ?_⟩
    have := (hm.owned x hx).2
    unfold Config.Here Config.destOf at this
    rwa [if_pos rfl] at this
  · intro hagg
    rw [if_neg hagg] at hentry
    have hnodes : cfg.destCount agg = cfg.numNodes := by
      cases agg with
      | WW => exact absurd rfl hagg
      | WPs => rfl
      | WsP => rfl
    exact ⟨hnodes ▸ hd, hentry, hm.written, fun x hx =>
      ⟨(hm.owned x hx).1, (here_node hagg).mp (hm.owned x hx).2⟩⟩

end Packet

namespace Event

/-- Items go through the buckets, to the PE that `get_dest_proc` names, and combining is
    enabled only if `combining` says so. -/
def Ok (cfg : Config α) (combining : Bool) : Event α F → Prop
  | .call _ op => op.Deferred ∧ op.Addressed cfg
  | .enableCombining _ => combining = true
  | .deliver _ _ => True

end Event

namespace System

variable [Inhabited α]

/-- Every PE and every message in flight is sound. -/
def Sound (cfg : Config α) (agg : Agg) (combining : Bool) (s : System α F) : Prop :=
  s.All cfg.numPes (Branch.Sound cfg agg combining) (Packet.Sound cfg agg)

variable {cfg : Config α} {agg : Agg} {combining : Bool} {s t : System α F}

/-- A call that keeps the books of its PE. -/
theorem Sound.ended (hs : s.Sound cfg agg combining) {pe : ℕ} (hpe : pe < cfg.numPes)
    {q : HTram α F} (hq : q.Books cfg agg combining) :
    (s.ended cfg pe q).Sound cfg agg combining := by
  have hp := hs.node pe hpe
  have hbranch : Branch.Sound cfg agg combining pe { s.node pe with tram := q } :=
    ⟨hq, hp.mine⟩
  refine Net.All.emit (Net.All.set hs hbranch) fun m hm => ?_
  obtain ⟨d, hd, x, hx, rfl⟩ := mem_outgoing.mp hm
  rw [hp.books.destCount] at hd
  obtain ⟨hentry, hwhole⟩ := (hq.dest d hd).sent x (List.mem_of_mem_drop hx)
  exact ⟨hd, hentry, hwhole⟩

theorem Sound.hand (hs : s.Sound cfg agg combining) {pe : ℕ} (hpe : pe < cfg.numPes)
    {items : List α} (hitems : ∀ y ∈ items, cfg.getDestProc y = pe) (count : ℤ) :
    (s.hand pe items count).Sound cfg agg combining := by
  have hmine : ∀ y ∈ (s.node pe).delivered ++ items, cfg.getDestProc y = pe := by
    intro y hy
    rcases List.mem_append.mp hy with hy | hy
    · exact (hs.node pe hpe).mine y hy
    · exact hitems y hy
  exact Net.All.set hs ⟨(hs.node pe hpe).books, hmine⟩

theorem Sound.arrive (hsize : 0 < cfg.nodeSize)
    (hs : s.Sound cfg agg combining) {m : Packet α} (hm : m.Sound cfg agg) {skip : Bool}
    (h : arrive cfg skip s m = some t) : t.Sound cfg agg combining := by
  cases m with
  | post p =>
    cases h
    obtain ⟨hpe, hmine, -⟩ := hm.post hsize
    exact hs.hand hpe hmine _
  | buffer d x =>
    obtain ⟨hww, hwps⟩ := hm.buffer
    by_cases ha : agg = .WW
    · obtain ⟨hd, hentry, hmine⟩ := hww ha
      rw [System.arrive, hentry] at h
      cases h
      refine hs.hand hd (fun y hy => ?_) 0
      obtain ⟨z, hz, rfl⟩ := List.mem_map.mp hy
      exact hmine z (List.mem_of_mem_take hz)
    · obtain ⟨hd, hentry, hwhole⟩ := hwps ha
      rw [System.arrive, hentry] at h
      cases h
      refine Net.All.emit hs fun m' hm' => ?_
      obtain ⟨p, hp, rfl⟩ := List.mem_map.mp hm'
      exact ⟨d, hd, skip, x.msg, hwhole, hp⟩

variable [ReleaseArith F]

theorem start_sound (cfg : Config α) (agg : Agg) (bufSize : ℕ) (combining : Bool) :
    (start agg bufSize : System α F).Sound cfg agg combining := by
  refine ⟨fun pe _ => ⟨HTram.init_books cfg agg bufSize combining, fun y hy => ?_⟩,
    fun m hm => ?_⟩
  · cases hy
  · cases hm

/-- An event keeps the system sound. -/
theorem step_sound (hagg : agg ≠ .WsP) (hsize : 0 < cfg.nodeSize)
    (hcombine : combining = true → ∀ d, cfg.Combines (cfg.Here agg d)) {e : Event α F}
    (he : e.Ok cfg combining) (hs : s.Sound cfg agg combining) (h : step cfg s e = some t) :
    t.Sound cfg agg combining := by
  cases e with
  | call pe op =>
    obtain ⟨hpe, h⟩ := step_call h
    obtain ⟨q, hq, rfl⟩ := settle_some h
    obtain ⟨hbooks, -⟩ :=
      HTram.step_books hagg hcombine (hs.node pe hpe).books he.1 he.2 hq
    exact hs.ended hpe hbooks
  | enableCombining pe =>
    obtain ⟨hpe, h⟩ := step_enableCombining h
    obtain ⟨q, hq, rfl⟩ := settle_some h
    obtain ⟨hbooks, -⟩ := HTram.enableCombining_books (hs.node pe hpe).books he hq
    exact hs.ended hpe hbooks
  | deliver k skip =>
    obtain ⟨m, hk, h⟩ := step_deliver h
    exact Sound.arrive hsize (Net.All.take hs k) (hs.arriving hk) h

end System

end Htram
