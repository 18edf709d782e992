import Htram.Pe.Steps
import Htram.Recv.Scan

/-!
# Source-sorted messages

Under `WsP` an item waits in the `localBuffers` entry of its PE and the node's message
only counts it; when the message ships, the entries are copied in, PE after PE.

* `Dest.shipSorted_carries`: a message has what was inserted since the last one, sorted
  by PE, and the scans of the node's PEs find it all.
* `HTram.run_sourceSorted`: so it is after every sequence of calls.
-/

namespace Htram

open RankSort HTramRecv

variable {α F : Type*}

/-- The item as it was handed in. -/
def Item.input (x : Item α) : Input α := .raw x.payload x.destPe

/-- The message has exactly the items `chunk`, sorted by PE, and every PE is handed its own
    of them, in order. -/
structure Carries (node : Node) (chunk : List (Input α)) (s : Sent α) : Prop where
  entry : s.entry = .receiveNoSort
  items : (s.msg.received.map Item.input).Perm chunk
  sorted : s.msg.received.Pairwise fun x y => x.destPe ≤ y.destPe
  handed : ∀ pe, handedByScan node s.msg pe =
    (chunk.filter fun x => x.destPe = pe).map Input.item

theorem forPe_input (xs : List (Item α)) (pe : ℕ) :
    ((xs.map Item.input).filter fun x => x.destPe = pe).map Input.item = forPe xs pe := by
  rw [List.filter_map, List.map_map]
  rfl

namespace Dest

/-- `since` has been inserted for node `n` since its last message. -/
structure Gathering (cfg : Config α) (n : ℕ) (since : List (Item α)) (d : Dest α) : Prop where
  owned : ∀ x ∈ since, (cfg.node n).Owns x.destPe
  next : d.msgBuffer.next = since.length
  waiting : ∀ r < cfg.nodeSize, d.localBuffers r = ofRank (cfg.node n).rank since r
  stuck : d.hold.stuck = false

variable {cfg : Config α} {n : ℕ} {since : List (Item α)} {d : Dest α}

theorem Gathering.sum (hd : d.Gathering cfg n since) :
    d.msgBuffer.next = ∑ r ∈ Finset.range cfg.nodeSize, (d.localBuffers r).length := by
  have hlen : ∀ r ∈ Finset.range cfg.nodeSize,
      (d.localBuffers r).length = size (cfg.node n).rank since r := by
    intro r hr
    rw [hd.waiting r (Finset.mem_range.mp hr), length_ofRank]
  rw [hd.next, Finset.sum_congr rfl hlen, ← first_eq_sum]
  exact (first_eq_length _ (rank_lt hd.owned)).symm

theorem Gathering.flatMap (hd : d.Gathering cfg n since) :
    (List.range cfg.nodeSize).flatMap d.localBuffers =
      gather (cfg.node n).rank cfg.nodeSize since :=
  List.flatMap_congr fun r hr => hd.waiting r (List.mem_range.mp hr)

/-- The message that is shipped. -/
theorem shipSorted_carries (k : Knobs F) (hd : d.Gathering cfg n since) :
    ∃ s, (d.shipSorted cfg k).sent = d.sent ++ [s] ∧
      Carries (cfg.node n) (since.map Item.input) s := by
  have hperm : (gather (cfg.node n).rank cfg.nodeSize since).Perm since :=
    gather_perm _ (rank_lt hd.owned)
  have hrec : (d.msgBuffer.copyIn
      ((List.range cfg.nodeSize).flatMap d.localBuffers)).received =
        gather (cfg.node n).rank cfg.nodeSize since := by
    rw [hd.flatMap]
    show List.take d.msgBuffer.next _ = _
    rw [hd.next, ← hperm.length_eq]
    exact List.take_length
  have hown : ∀ x ∈ gather (cfg.node n).rank cfg.nodeSize since, (cfg.node n).Owns x.destPe :=
    fun x hx => hd.owned x (hperm.mem_iff.mp hx)
  have hsorted : (gather (cfg.node n).rank cfg.nodeSize since).Pairwise
      fun x y => x.destPe ≤ y.destPe := by
    refine (gather_sorted (cfg.node n).rank cfg.nodeSize since).imp_of_mem fun {x y} hx hy hxy => ?_
    have h1 := hown x hx
    have h2 := hown y hy
    unfold Node.Owns at h1 h2
    unfold Node.rank at hxy
    omega
  refine ⟨_, rfl, rfl, ?_, ?_, fun pe => ?_⟩
  · rw [hrec]
    exact hperm.map _
  · rw [hrec]
    exact hsorted
  · rw [receiveNoSort_handed (by rwa [hrec]) (by rwa [hrec]), hrec, forPe_input]
    by_cases hpe : (cfg.node n).Owns pe
    · obtain ⟨r, rfl⟩ := Nat.exists_eq_add_of_le hpe.1
      have hr : r < cfg.nodeSize := Nat.lt_of_add_lt_add_left hpe.2
      rw [← ofRank_rank hown, ← ofRank_rank hd.owned, ofRank_gather _ hr]
    · have hnone : ∀ xs : List (Item α), (∀ x ∈ xs, (cfg.node n).Owns x.destPe) →
          forPe xs pe = [] := by
        intro xs hxs
        refine List.map_eq_nil_iff.mpr (List.filter_eq_nil_iff.mpr fun x hx => ?_)
        rw [decide_eq_true_eq]
        rintro rfl
        exact hpe (hxs x hx)
      rw [hnone _ hown, hnone _ hd.owned]

theorem shipSorted_gathering (k : Knobs F) (hd : d.Gathering cfg n since) :
    (d.shipSorted cfg k).Gathering cfg n [] := by
  refine ⟨by simp, rfl, fun r hr => ?_, hd.stuck⟩
  show (if r < cfg.nodeSize then [] else d.localBuffers r) = _
  rw [if_pos hr]
  rfl

/-- One more item. -/
theorem Gathering.insert (hd : d.Gathering cfg n since) {x : Item α}
    (hx : (cfg.node n).Owns x.destPe) :
    ({ d with
      localBuffers := Function.update d.localBuffers ((cfg.node n).rank x)
        (d.localBuffers ((cfg.node n).rank x) ++ [x])
      msgBuffer := { d.msgBuffer with next := d.msgBuffer.next + 1 } } : Dest α).Gathering cfg n
        (since ++ [x]) := by
  refine ⟨fun y hy => ?_, ?_, fun r hr => ?_, hd.stuck⟩
  · rcases List.mem_append.mp hy with hy | hy
    · exact hd.owned y hy
    · rw [List.mem_singleton.mp hy]
      exact hx
  · rw [List.length_append, ← hd.next]
    rfl
  · have hsplit : ofRank (cfg.node n).rank (since ++ [x]) r =
        ofRank (cfg.node n).rank since r ++ if (cfg.node n).rank x = r then [x] else [] := by
      rw [ofRank, List.filter_append, List.filter_singleton]
      by_cases hxr : (cfg.node n).rank x = r <;> simp [hxr, ofRank]
    show Function.update d.localBuffers _ _ r = _
    rw [hsplit]
    by_cases hxr : (cfg.node n).rank x = r
    · subst hxr
      rw [Function.update_self, if_pos rfl, hd.waiting _ hr]
    · rw [Function.update_of_ne (Ne.symm hxr), if_neg hxr, List.append_nil, hd.waiting r hr]

end Dest

/-! ## What has been inserted since the last message -/

/-- What was inserted for a node before each of its messages, and since the last one. -/
structure History (α : Type*) where
  messages : List (List (Input α))
  since : List (Input α)

/-- After a call that inserts `new` and, if `shipped`, ships a message at its end. -/
def History.after (h : History α) (new : List (Input α)) (shipped : Bool) : History α :=
  if shipped then ⟨h.messages ++ [h.since ++ new], []⟩ else ⟨h.messages, h.since ++ new⟩

namespace Dest

/-- The messages shipped and the items waiting are those of the history. -/
def Logged (cfg : Config α) (n : ℕ) (h : History α) (d : Dest α) : Prop :=
  List.Forall₂ (Carries (cfg.node n)) h.messages d.sent ∧
    ∃ since : List (Item α), since.map Item.input = h.since ∧ d.Gathering cfg n since

/-- Whether a message has been shipped between `d` and `d'`. -/
def shippedSince (d d' : Dest α) : Bool := decide (d.sent.length < d'.sent.length)

variable {cfg : Config α} {n : ℕ} {h : History α} {d : Dest α}

/-- Nothing is shipped. -/
theorem Gathering.kept {d' : Dest α} {since : List (Item α)} {new : List (Input α)}
    (hg : d'.Gathering cfg n since) (hsince : since.map Item.input = h.since ++ new)
    (hmsg : List.Forall₂ (Carries (cfg.node n)) h.messages d.sent) (hsent : d'.sent = d.sent) :
    d'.Logged cfg n (h.after new (d.shippedSince d')) := by
  have hno : d.shippedSince d' = false := by
    rw [shippedSince, hsent, decide_eq_false (lt_irrefl _)]
  rw [hno, History.after, if_neg Bool.false_ne_true, Logged, hsent]
  exact ⟨hmsg, since, hsince, hg⟩

theorem Logged.same {d' : Dest α} (hd : d.Logged cfg n h) (hb : d'.localBuffers = d.localBuffers)
    (hnext : d'.msgBuffer.next = d.msgBuffer.next) (hh : d'.hold = d.hold)
    (hsent : d'.sent = d.sent) : d'.Logged cfg n (h.after [] (d.shippedSince d')) := by
  obtain ⟨hmsg, since, hsince, hg⟩ := hd
  have hg' : d'.Gathering cfg n since :=
    ⟨hg.owned, hnext.trans hg.next, by rw [hb]; exact hg.waiting, by rw [hh]; exact hg.stuck⟩
  exact hg'.kept (hsince.trans (List.append_nil _).symm) hmsg hsent

/-- The message with `since` is shipped. -/
theorem Gathering.shipped {d' : Dest α} {since : List (Item α)} {new : List (Input α)}
    (k : Knobs F) (hg : d'.Gathering cfg n since) (hsince : since.map Item.input = h.since ++ new)
    (hmsg : List.Forall₂ (Carries (cfg.node n)) h.messages d.sent) (hsent : d'.sent = d.sent) :
    (d'.shipSorted cfg k).Logged cfg n (h.after new (d.shippedSince (d'.shipSorted cfg k))) := by
  obtain ⟨s, hs, hcarries⟩ := shipSorted_carries k hg
  have hyes : d.shippedSince (d'.shipSorted cfg k) = true := by
    rw [shippedSince, hs, hsent, List.length_append, decide_eq_true_eq]
    exact Nat.lt_succ_self _
  rw [hyes, History.after, if_pos rfl, Logged, hs, hsent, ← hsince]
  exact ⟨List.rel_append hmsg (.cons hcarries .nil), [], rfl, shipSorted_gathering k hg⟩

theorem insertSorted_logged (k : Knobs F) (hd : d.Logged cfg n h) {x : Item α}
    (hx : (cfg.node n).Owns x.destPe) :
    (d.insertSorted cfg k x ((cfg.node n).rank x)).Logged cfg n
      (h.after [x.input] (d.shippedSince (d.insertSorted cfg k x ((cfg.node n).rank x)))) := by
  obtain ⟨hmsg, since, hsince, hg⟩ := hd
  have hg' := hg.insert hx
  have hmap : (since ++ [x]).map Item.input = h.since ++ [x.input] := by
    rw [List.map_append, hsince, List.map_singleton]
  unfold insertSorted
  dsimp only
  split_ifs with hfull
  · exact hg'.shipped k hmap hmsg rfl
  · exact hg'.kept hmap hmsg rfl

theorem flushSorted_logged (k : Knobs F) (idleflush : Bool) (hd : d.Logged cfg n h) :
    (d.flushSorted cfg k idleflush).Logged cfg n
      (h.after [] (d.shippedSince (d.flushSorted cfg k idleflush))) := by
  unfold flushSorted
  split_ifs with hno
  · exact hd.same rfl rfl rfl rfl
  · obtain ⟨hmsg, since, hsince, hg⟩ := hd
    exact hg.shipped k (hsince.trans (List.append_nil _).symm) hmsg rfl

end Dest

namespace HTram

/-- The calls of a client that sorts at the source. -/
def SourceSorts (cfg : Config α) : Op α F → Prop
  | .insertValue _ destPe => destPe < cfg.numPes
  | .setBufferSize _ | .tflush _ => True
  | _ => False

/-- A PE under `WsP` with a history for each node. -/
structure Gathers (cfg : Config α) (h : ℕ → History α) (p : HTram α F) : Prop where
  agg : p.knobs.agg = .WsP
  combining : p.knobs.combining = false
  logged : ∀ n < cfg.numNodes, (p.dest n).Logged cfg n (h n)

/-- The histories after a call from `p` to `q`. -/
def logStep (cfg : Config α) (op : Op α F) (p q : HTram α F) (h : ℕ → History α) (n : ℕ) :
    History α :=
  (h n).after (op.inputs cfg .WsP n) ((p.dest n).shippedSince (q.dest n))

theorem Gathers.destCount {cfg : Config α} {h : ℕ → History α} {p : HTram α F}
    (hp : p.Gathers cfg h) : p.destCount cfg = cfg.numNodes := by
  unfold HTram.destCount
  rw [hp.agg]
  rfl

variable {cfg : Config α} {h : ℕ → History α} {p : HTram α F}

theorem insertValue_gathers (hp : p.Gathers cfg h) (value : α) {destPe : ℕ}
    (hpe : destPe < cfg.numPes) :
    (p.insertValue cfg value destPe).Gathers cfg
      (logStep cfg (.insertValue value destPe) p (p.insertValue cfg value destPe) h) := by
  have hns : 0 < cfg.nodeSize := by
    by_contra h0
    rw [Config.numPes, Nat.eq_zero_of_not_pos h0] at hpe
    omega
  have hdest : cfg.destOf .WsP destPe = destPe / cfg.nodeSize := rfl
  have hown : (cfg.node (destPe / cfg.nodeSize)).Owns destPe :=
    ⟨Nat.div_mul_le_self .., Nat.lt_div_mul_add hns⟩
  have hrank : ∀ f : Fill, destPe % cfg.nodeSize =
      (cfg.node (destPe / cfg.nodeSize)).rank (⟨destPe, value, f⟩ : Item α) := by
    intro f
    have := Nat.div_add_mod' destPe cfg.nodeSize
    show _ = destPe - destPe / cfg.nodeSize * cfg.nodeSize
    omega
  refine ⟨hp.agg, hp.combining, fun n hn => ?_⟩
  show Dest.Logged cfg n ((h n).after (if cfg.destOf .WsP destPe = n then _ else _) _) _
  by_cases he : n = destPe / cfg.nodeSize
  · subst he
    have heq : (p.insertValue cfg value destPe).dest (destPe / cfg.nodeSize) =
        (p.dest (destPe / cfg.nodeSize)).insertSorted cfg p.knobs
          ⟨destPe, value, (p.dest (destPe / cfg.nodeSize)).fill p.knobs none false⟩
          (destPe % cfg.nodeSize) := by
      unfold insertValue Dest.insertValue
      rw [hp.agg]
      simp [setDest, hdest]
    rw [if_pos hdest, heq, hrank]
    exact Dest.insertSorted_logged p.knobs (hp.logged _ hn) hown
  · have heq : (p.insertValue cfg value destPe).dest n = p.dest n := by
      unfold insertValue
      rw [hp.agg, hdest]
      exact Function.update_of_ne he _ _
    rw [if_neg (by rw [hdest]; exact Ne.symm he), heq]
    exact (hp.logged n hn).same rfl rfl rfl rfl

theorem tflush_gathers (hp : p.Gathers cfg h) (idleflush : Bool) :
    ∃ q, p.tflush cfg idleflush = .returns q ∧
      q.Gathers cfg (logStep cfg (.tflush idleflush) p q h) := by
  have hflush : ∀ d < p.destCount cfg,
      ((p.dest d).tflush cfg p.knobs idleflush) = (p.dest d).flushSorted cfg p.knobs idleflush := by
    intro d _
    unfold Dest.tflush
    rw [if_neg (by simp [hp.combining]), if_pos hp.agg]
  have hstuck : ∀ d < p.destCount cfg,
      ((p.dest d).tflush cfg p.knobs idleflush).hold.stuck = false := by
    intro d hd
    rw [hflush d hd]
    rw [hp.destCount] at hd
    obtain ⟨-, since, -, hg⟩ := hp.logged d hd
    unfold Dest.flushSorted
    split_ifs <;> exact hg.stuck
  refine ⟨_, forDest_eq hstuck, hp.agg, hp.combining, fun n hn => ?_⟩
  have hn' : n < p.destCount cfg := by rwa [hp.destCount]
  unfold logStep
  rw [mapDest_dest _ _ hn', hflush n hn']
  exact Dest.flushSorted_logged p.knobs idleflush (hp.logged n hn)

variable [ReleaseArith F]

theorem setBufferSize_gathers (hp : p.Gathers cfg h) (newSize : ℕ) :
    (p.setBufferSize cfg newSize).Holds
      (fun q => q.Gathers cfg (logStep cfg (.setBufferSize newSize) p q h)) fun _ => False := by
  unfold setBufferSize
  by_cases hrange : 0 < newSize ∧ newSize ≤ cfg.maxBufSize
  swap
  · rw [if_pos hrange]
    trivial
  rw [if_neg (not_not.mpr hrange)]
  by_cases hsame : newSize = p.knobs.bufSize
  · rw [if_pos hsame]
    exact ⟨hp.agg, hp.combining, fun n hn => (hp.logged n hn).same rfl rfl rfl rfl⟩
  rw [if_neg hsame, if_neg fun h => h.2 hp.agg]
  by_cases hbuffered : ∃ d < p.destCount cfg, (p.dest d).msgBuffer.next ≠ 0
  · rw [if_pos hbuffered]
    trivial
  · rw [if_neg hbuffered]
    refine ⟨hp.agg, hp.combining, fun n hn => ?_⟩
    have hn' : n < p.destCount cfg := by rwa [hp.destCount]
    have hempty : (p.dest n).msgBuffer.next = 0 := by
      by_contra hne
      exact hbuffered ⟨n, hn', hne⟩
    unfold logStep
    rw [mapDest_dest _ _ hn']
    exact (hp.logged n hn).same rfl hempty.symm rfl rfl

variable [Inhabited α]

/-- One call keeps the messages and the waiting items those of the history. -/
theorem step_gathers (hp : p.Gathers cfg h) {op : Op α F} (hop : SourceSorts cfg op) :
    (p.step cfg op).Holds (fun q => q.Gathers cfg (logStep cfg op p q h)) fun _ => False := by
  cases op with
  | insertValue value destPe => exact insertValue_gathers hp value hop
  | setBufferSize newSize => exact setBufferSize_gathers hp newSize
  | tflush idleflush =>
    obtain ⟨q, hq, hg⟩ := tflush_gathers hp idleflush
    rw [step, hq]
    exact hg
  | send | sendTo | insertValueWPs | changeThreshold | coarsenBuckets | flushStale | flushIdle =>
    exact hop.elim

/-- The histories after the calls `ops` from `p`. -/
def logRun (cfg : Config α) : List (Op α F) → HTram α F → (ℕ → History α) → ℕ → History α
  | [], _, h => h
  | op :: ops, p, h =>
    match p.step cfg op with
    | .returns q => logRun cfg ops q (logStep cfg op p q h)
    | _ => h

theorem run_gathers :
    ∀ (ops : List (Op α F)) (p : HTram α F) (h : ℕ → History α), p.Gathers cfg h →
      (∀ op ∈ ops, SourceSorts cfg op) →
      (p.run cfg ops).Holds (fun q => q.Gathers cfg (logRun cfg ops p h)) fun _ => False := by
  intro ops
  induction ops with
  | nil => intro p h hp _; exact hp
  | cons op ops ih =>
    intro p h hp hops
    have hstep := step_gathers hp (hops op (List.mem_cons_self ..))
    rw [run, logRun]
    cases hq : p.step cfg op with
    | aborts => trivial
    | hangs q => rw [hq] at hstep; exact hstep
    | returns q =>
      rw [hq] at hstep
      exact ih q _ hstep fun op' hop => hops op' (List.mem_cons_of_mem _ hop)

/-- The buffers count what waits in `localBuffers`, every message has what was inserted
    for its node since the one before, and only `setBufferSize` may abort next. -/
structure SourceSorted (cfg : Config α) (h : ℕ → History α) (q : HTram α F) : Prop where
  count : ∀ n < cfg.numNodes, (q.dest n).msgBuffer.next =
    ∑ r ∈ Finset.range cfg.nodeSize, ((q.dest n).localBuffers r).length
  messages : ∀ n < cfg.numNodes,
    List.Forall₂ (Carries (cfg.node n)) (h n).messages (q.dest n).sent
  returns : ∀ op : Op α F, SourceSorts cfg op → (∀ newSize, op ≠ .setBufferSize newSize) →
    ∃ r, q.step cfg op = .returns r

theorem Gathers.sourceSorted (hp : p.Gathers cfg h) : p.SourceSorted cfg h where
  count := by
    intro n hn
    obtain ⟨-, since, -, hg⟩ := hp.logged n hn
    exact hg.sum
  messages := fun n hn => (hp.logged n hn).1
  returns := by
    intro op hop hne
    cases op with
    | insertValue value destPe => exact ⟨_, rfl⟩
    | setBufferSize newSize => exact absurd rfl (hne newSize)
    | tflush idleflush =>
      obtain ⟨q, hq, -⟩ := tflush_gathers hp idleflush
      exact ⟨q, hq⟩
    | send | sendTo | insertValueWPs | changeThreshold | coarsenBuckets | flushStale
    | flushIdle => exact hop.elim

/-- Nothing has been inserted. -/
def noHistory : ℕ → History α := fun _ => ⟨[], []⟩

/-- After every sequence of calls of a client that sorts at the source. -/
theorem run_sourceSorted (cfg : Config α) (bufSize : ℕ) {ops : List (Op α F)}
    (hops : ∀ op ∈ ops, SourceSorts cfg op) :
    (run cfg ops (init .WsP bufSize : HTram α F)).Holds
      (fun q => q.SourceSorted cfg (logRun cfg ops (init .WsP bufSize) noHistory))
      fun _ => False := by
  have hinit : (init .WsP bufSize : HTram α F).Gathers cfg noHistory :=
    ⟨rfl, rfl, fun n _ => ⟨.nil, [], rfl, by simp, rfl, fun _ _ => rfl, rfl⟩⟩
  have hrun := run_gathers ops _ _ hinit hops
  cases hq : run cfg ops (init .WsP bufSize : HTram α F) with
  | aborts => trivial
  | hangs q => rw [hq] at hrun; exact hrun
  | returns q =>
    rw [hq] at hrun
    exact Gathers.sourceSorted hrun

/-- Items for PEs 1, 0 and 1 of a node of two. -/
def threeInserts : List (Op KeyValue ℚ) :=
  [.insertValue ⟨0, 5⟩ 1, .insertValue ⟨1, 6⟩ 0, .insertValue ⟨2, 7⟩ 1, .tflush false]

theorem run_sourceSorted_three :
    ∃ q, run { oneNode with nodeSize := 2 } threeInserts (init .WsP 4) = .returns q ∧
      (q.dest 0).sent.length = 1 ∧
      q.SourceSorted { oneNode with nodeSize := 2 }
        (logRun { oneNode with nodeSize := 2 } threeInserts (init .WsP 4) noHistory) := by
  have hops : ∀ op ∈ threeInserts, SourceSorts { oneNode with nodeSize := 2 } op := by
    simp [threeInserts, SourceSorts, Config.numPes, oneNode]
  obtain ⟨q, hq, hsent⟩ := Outcome.of_check (P := fun q : HTram KeyValue ℚ =>
    (q.dest 0).sent.length = 1)
    (o := run { oneNode with nodeSize := 2 } threeInserts (init .WsP 4)) (by decide +kernel)
  have h := run_sourceSorted { oneNode with nodeSize := 2 } 4 hops
  rw [hq] at h
  exact ⟨q, hq, hsent, h⟩

end HTram

end Htram
