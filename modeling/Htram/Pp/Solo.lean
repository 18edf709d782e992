import Htram.Pp.Progress
import Htram.Pp.Shared

/-!
# A PE on its own

`Htram.Pp.Node` has the two functions as the only PE of a node runs them, `Htram.Pp.Shared` takes
any number of PEs step by step. On a node of one PE they agree.

* `Node.solo_copy`, `Node.solo_flush`: the steps of one call.
* `solo_calls`: any calls of a new PE.
-/

namespace Htram

namespace PP

variable {α : Type*}

/-- A node of one PE, with a `bufSize` that `LOCAL_BUFSIZE` divides. -/
def Config.solo (cfg : Config) (bufSize : ℕ) (whole : localBufSize ∣ bufSize) : NodeConfig where
  numPes := 1
  bufSize := bufSize
  maxBufSize := cfg.maxBufSize
  mailboxes := cfg.mailboxes
  whole := whole

namespace Node

/-- PE 0 gets from `s` to `t` by itself. -/
def Solo (cfg : NodeConfig) : Node α → Node α → Prop :=
  Relation.ReflTransGen fun s t => t = s.run cfg 0

variable {cfg : NodeConfig} {s t u : Node α}

@[simp] theorem goto_self (s : Node α) (p : ℕ) (c : Pc α) : (s.goto p c).pc p = c :=
  Function.update_self ..

theorem Solo.reachable (hpes : 0 < cfg.numPes) (hst : Solo cfg s t) (h : Reachable cfg s) :
    Reachable cfg t := by
  induction hst with
  | refl => exact h
  | tail _ hrun ih =>
    rw [hrun]
    exact ih.tail (.run hpes)

theorem Solo.iterate (n : ℕ) (s : Node α) : Solo cfg s ((fun s => s.run cfg 0)^[n] s) := by
  induction n with
  | zero => exact .refl
  | succ n ih =>
    rw [Function.iterate_succ_apply']
    exact ih.tail rfl

/-! ## The pieces of the two functions -/

theorem copyIn_zero (m src : Message α) (idx : ℕ) : m.copyIn idx 0 src = m := by
  unfold Message.copyIn
  congr 1
  funext j
  rw [if_neg (by omega)]

theorem copyIn_succ (m : Message α) {src : Message α} (idx : ℕ) {i : ℕ} {x : ItemT α}
    (hx : src.slots i = some x) :
    (m.copyIn idx i src).setItem (idx + i) x = m.copyIn idx (i + 1) src := by
  unfold Message.copyIn Message.setItem
  congr 1
  funext j
  by_cases hj : j = idx + i
  · have hslot : ((j : ℤ) - idx).toNat = i := by omega
    rw [if_pos (by omega), hslot, hx, hj]
    exact Function.update_self ..
  · rw [Function.update_of_ne hj]
    by_cases hin : idx ≤ j ∧ j < idx + i
    · rw [if_pos (by omega)]
      exact if_pos (by omega)
    · rw [if_neg (by omega)]
      exact if_neg (by omega)

/-- The loop over the items. -/
theorem solo_write (cfg : NodeConfig) {items : List (ItemT α)} {src : Message α} {idx : ℕ}
    (hsrc : src.Has items) (hpc : s.pc 0 = .write items idx 0) :
    ∀ i ≤ items.length, Solo cfg s
      ((s.setMessage s.cur ((s.heap s.cur).copyIn idx i src)).goto 0 (.write items idx i)) := by
  intro i
  induction i with
  | zero =>
    intro _
    rw [copyIn_zero]
    have hsame : (s.setMessage s.cur (s.heap s.cur)).goto 0 (.write items idx 0) = s := by
      unfold setMessage goto
      rw [Function.update_eq_self, ← hpc, Function.update_eq_self]
    rw [hsame]
    exact .refl
  | succ i ih =>
    intro hi
    obtain ⟨x, hx⟩ : ∃ x, items[i]? = some x := ⟨items[i], List.getElem?_eq_getElem hi⟩
    have hstart := ih (by omega)
    refine (hstart.tail rfl).tail ?_
    simp [run, goto, setMessage, hx, copyIn_succ _ idx ((hsrc i hi).trans hx)]

/-- `copyToNodeBuf` up to the counts. -/
theorem solo_fill (cfg : NodeConfig) {items : List (ItemT α)} {src : Message α} {n : ℕ}
    (hlt : n < cfg.bufSize) (hget : s.getIdx = n) (hsrc : src.Has items) :
    Solo cfg (s.goto 0 (.claim items)) (({ s with
      getIdx := n + localBufSize
      claims := s.claims ++ [n] : Node α }.setMessage s.cur
        ((s.heap s.cur).copyIn n items.length src)).goto 0 (.count n)) := by
  have hclaim : (s.goto 0 (.claim items)).run cfg 0 =
      { s with getIdx := n + localBufSize, claims := s.claims ++ [n] : Node α }.goto 0
        (.write items n 0) := by
    simp [run, goto, hget, hlt.not_ge]
  have hwrite := solo_write cfg hsrc (goto_self
    { s with getIdx := n + localBufSize, claims := s.claims ++ [n] } 0 (.write items n 0))
    items.length le_rfl
  refine .head hclaim.symm (hwrite.tail ?_)
  simp [run, goto, setMessage]

/-- The counts of a copy. -/
theorem solo_count (cfg : NodeConfig) {idx : ℕ} (hpc : s.pc 0 = .count idx) :
    Solo cfg s
      ({ s with
        doneCount := s.doneCount + localBufSize
        mailbox := if cfg.mailboxes then Function.update s.mailbox 0 (s.mailbox 0 + localBufSize)
          else s.mailbox : Node α }.goto 0
        (if s.doneCount + localBufSize = cfg.bufSize then
          if cfg.mailboxes then .await .copy cfg.bufSize cfg.numPes 0 else Role.copy.ships cfg
        else .idle)) := by
  by_cases hon : cfg.mailboxes = true
  · have hsteps : Solo cfg s ((fun s => s.run cfg 0)^[2] s) := Solo.iterate 2 s
    simpa [run, goto, hpc, hon] using hsteps
  · have hsteps : Solo cfg s ((fun s => s.run cfg 0)^[1] s) := Solo.iterate 1 s
    simpa [run, goto, hpc, hon] using hsteps

/-- `copyToNodeBuf` up to where the buffer may be shipped. -/
theorem solo_copied (cfg : NodeConfig) {items : List (ItemT α)} {src : Message α} {n : ℕ}
    (hlt : n < cfg.bufSize) (hget : s.getIdx = n) (hsrc : src.Has items) :
    ∃ t, Solo cfg (s.goto 0 (.claim items)) t ∧ t.getIdx = n + localBufSize ∧
      t.doneCount = s.doneCount + localBufSize ∧
      (cfg.mailboxes = true → t.mailbox 0 = s.mailbox 0 + localBufSize) ∧
      t.heap t.cur = (s.heap s.cur).copyIn n items.length src ∧ t.sent = s.sent ∧
      t.pc 0 = if s.doneCount + localBufSize = cfg.bufSize then
          if cfg.mailboxes then .await .copy cfg.bufSize cfg.numPes 0 else Role.copy.ships cfg
        else .idle := by
  have hfill := solo_fill cfg hlt hget hsrc
  have hcount := solo_count cfg (goto_self
    ({ s with getIdx := n + localBufSize, claims := s.claims ++ [n] : Node α }.setMessage s.cur
      ((s.heap s.cur).copyIn n items.length src)) 0 (.count n))
  refine ⟨_, hfill.trans hcount, rfl, rfl, fun hon => ?_, ?_, rfl, goto_self ..⟩
  · simp [goto, setMessage, hon]
  · simp [goto, setMessage]

/-- `tflush` takes the buffer, with all of its `n` items counted. -/
theorem solo_lock (cfg : NodeConfig) {n : ℕ} (hpos : 0 < n) (hlt : n < cfg.bufSize)
    (hget : s.getIdx = n) (hdone : s.doneCount = n) :
    Solo cfg (s.goto 0 .check) ({ s with getIdx := n + cfg.bufSize : Node α }.goto 0
      (if cfg.mailboxes then .await .flush n cfg.numPes 0 else .load)) := by
  have hsteps : Solo cfg (s.goto 0 .check) ((fun s => s.run cfg 0)^[3] (s.goto 0 .check)) :=
    Solo.iterate 3 _
  simpa [run, goto, hget, hdone, hpos.ne', hlt.not_ge] using hsteps

/-- The loop over the mailboxes, round again and once more, and the loop that clears them. -/
theorem solo_await (cfg : NodeConfig) (hone : cfg.numPes = 1) {role : Role} {target : ℕ}
    (hpos : 0 < target) (hle : target ≤ s.mailbox 0)
    (hpc : s.pc 0 = .await role target cfg.numPes 0) :
    Solo cfg s
      ({ s with mailbox := Function.update s.mailbox 0 0 : Node α }.goto 0 (role.ships cfg)) := by
  have hsteps : Solo cfg s ((fun s => s.run cfg 0)^[5] s) := Solo.iterate 5 s
  simpa [run, goto, hpc, hone, hpos, hle.not_gt] using hsteps

/-- Both functions from where the buffer is shipped, up to the end. -/
theorem solo_ship (cfg : NodeConfig) {next : ℕ} (hpc : s.pc 0 = .setNext next) :
    ∃ t, Solo cfg s t ∧ t.pc 0 = .idle ∧ t.getIdx = 0 ∧ t.doneCount = 0 ∧
      t.mailbox = s.mailbox ∧ t.heap t.cur = newMessage (cfg.maxBufSize + localBufSize) ∧
      t.sent.map Shipment.msg =
        s.sent.map Shipment.msg ++ [{ s.heap s.cur with next := next }] := by
  refine ⟨_, Solo.iterate 7 s, ?_⟩
  simp [run, goto, setMessage, hpc]

/-! ## The two functions -/

/-- The node has what the sequential functions have for a destination node: the counters, the
    buffer, and of the messages sent those that are no `local_buf`. -/
structure Agrees (cfg : Config) (s : Node α) (d : Dest α) : Prop where
  getIdx : d.getIdx = s.getIdx
  doneCount : d.doneCount = s.doneCount
  mailbox : cfg.mailboxes = true → d.mailbox = s.mailbox 0
  msgBuffer : d.msgBuffer = s.heap s.cur
  cap : (s.heap s.cur).cap = cfg.maxBufSize + localBufSize
  localCap : d.localBuf.cap = localBufSize
  sent : d.sent.filter (fun m => m.cap ≠ localBufSize) = s.sent.map Shipment.msg

/-- The same between two calls. -/
structure Matches (cfg : Config) (s : Node α) (d : Dest α) : Prop
    extends Agrees cfg s d where
  idle : s.pc 0 = .idle

section Calls

variable {cfg : Config} {bufSize : ℕ} (whole : localBufSize ∣ bufSize) {d : Dest α}

theorem Agrees.ship (h : Agrees cfg s d) (hmax : 0 < cfg.maxBufSize) {next : ℕ}
    (hpc : s.pc 0 = .setNext next) (hmail : cfg.mailboxes = true → s.mailbox 0 = 0) :
    ∃ t, Solo (cfg.solo bufSize whole) s t ∧ Matches cfg t (d.ship cfg next) := by
  obtain ⟨t, hst, hidle, hget, hdone, hbox, hbuf, hsent⟩ :=
    solo_ship (cfg.solo bufSize whole) hpc
  refine ⟨t, hst, ⟨?_, ?_, ?_, ?_, ?_, h.localCap, ?_⟩, hidle⟩
  · rw [hget]
    rfl
  · rw [hdone]
    rfl
  · intro hon
    rw [hbox, hmail hon]
    rfl
  · exact hbuf.symm
  · rw [hbuf]
    rfl
  · have hcap : (s.heap s.cur).cap ≠ localBufSize := by
      rw [h.cap]
      omega
    rw [hsent, ← h.sent]
    simp [Dest.ship, List.filter_append, h.msgBuffer, hcap]

/-- From `role.ships` on. -/
theorem Agrees.ships (h : Agrees cfg s d) (hmax : 0 < cfg.maxBufSize) {role : Role} {count : ℕ}
    (hcopy : role = .copy → count = bufSize) (hflush : role = .flush → s.doneCount = count)
    (hpc : s.pc 0 = role.ships (cfg.solo bufSize whole))
    (hmail : cfg.mailboxes = true → s.mailbox 0 = 0) :
    ∃ t, Solo (cfg.solo bufSize whole) s t ∧ Matches cfg t (d.ship cfg count) := by
  cases role with
  | copy =>
    rw [hcopy rfl]
    exact h.ship whole hmax hpc hmail
  | flush =>
    have hload : s.run (cfg.solo bufSize whole) 0 = s.goto 0 (.setNext count) := by
      unfold run
      rw [hpc, ← hflush rfl]
      rfl
    have hagree : Agrees cfg (s.goto 0 (.setNext count)) d := ⟨h.1, h.2, h.3, h.4, h.5, h.6, h.7⟩
    obtain ⟨t, hst, ht⟩ := hagree.ship whole hmax (goto_self ..) hmail
    exact ⟨t, .head hload.symm hst, ht⟩

/-- The wait for the mailboxes, if there are any, and what follows. -/
theorem Agrees.awaitShip (h : Agrees cfg s d) (hmax : 0 < cfg.maxBufSize) (role : Role)
    {count : ℕ} (hcopy : role = .copy → count = bufSize)
    (hflush : role = .flush → s.doneCount = count) (hpos : 0 < count)
    (hle : cfg.mailboxes = true → count ≤ s.mailbox 0)
    (hpc : s.pc 0 = if cfg.mailboxes then .await role count 1 0
      else role.ships (cfg.solo bufSize whole)) :
    ∃ t, Solo (cfg.solo bufSize whole) s t ∧ Matches cfg t (d.ship cfg count) := by
  by_cases hon : cfg.mailboxes = true
  · rw [if_pos hon] at hpc
    have hwait := solo_await (cfg.solo bufSize whole) rfl hpos (hle hon) hpc
    have hagree : Agrees cfg ({ s with mailbox := Function.update s.mailbox 0 0 : Node α }.goto 0
        (role.ships (cfg.solo bufSize whole))) { d with mailbox := 0 } :=
      ⟨h.1, h.2, fun _ => (Nat.cast_zero (R := ℤ)).symm, h.4, h.5, h.6, h.7⟩
    obtain ⟨t, hst, ht⟩ := hagree.ships whole hmax hcopy hflush (goto_self ..) fun _ => rfl
    exact ⟨t, hwait.trans hst, ht⟩
  · rw [if_neg hon] at hpc
    exact h.ships whole hmax hcopy hflush hpc fun hon' => absurd hon' hon

theorem Agrees.getIdx_eq (h : Agrees cfg s d) {shipped shared : List (ItemT α)}
    (hd : Buffers cfg d shipped shared) : s.getIdx = shared.length :=
  Int.ofNat_inj.mp (h.getIdx.symm.trans hd.getIdx)

theorem Agrees.doneCount_eq (h : Agrees cfg s d) {shipped shared : List (ItemT α)}
    (hd : Buffers cfg d shipped shared) : s.doneCount = shared.length :=
  Int.ofNat_inj.mp (h.doneCount.symm.trans hd.doneCount)

theorem Agrees.mailbox_eq (h : Agrees cfg s d) {shipped shared : List (ItemT α)}
    (hd : Buffers cfg d shipped shared) (hon : cfg.mailboxes = true) :
    s.mailbox 0 = shared.length := by
  have hbox := hd.mailbox
  rw [if_pos hon, h.mailbox hon] at hbox
  exact Int.ofNat_inj.mp hbox

theorem Matches.restart (h : Matches cfg s d) : Matches cfg s { d with localIdx := 0 } :=
  ⟨⟨h.getIdx, h.doneCount, h.mailbox, h.msgBuffer, h.cap, h.localCap, h.sent⟩, h.idle⟩

/-- After the counts the node has what `copyAt` leaves. -/
theorem Agrees.copyAt (h : Agrees cfg s d) (hmax : bufSize ≤ cfg.maxBufSize)
    {shipped shared items : List (ItemT α)} (hd : Buffers cfg d shipped shared)
    (hlt : shared.length < bufSize) (hhas : d.localBuf.Has items)
    (hlen : items.length = localBufSize) :
    ∃ t, Solo (cfg.solo bufSize whole)
        ({ s with log := s.log ++ items : Node α }.goto 0 (.claim items)) t ∧
      Agrees cfg t (d.copyAt cfg localBufSize shared.length (fetchAdd shared.length localBufSize)) ∧
      (cfg.mailboxes = true → t.mailbox 0 = shared.length + localBufSize) ∧
      t.pc 0 = if shared.length + localBufSize = bufSize then
          if cfg.mailboxes then .await .copy bufSize 1 0 else .setNext bufSize
        else .idle := by
  have hdone := h.doneCount_eq hd
  have hcopy := hd.copyAt hlt hmax hhas hlen
  have htotal : (shared ++ items).length = shared.length + localBufSize := by
    rw [List.length_append, hlen]
  obtain ⟨t, hst, hget, hcount, hmail, hbuf, hsent, hpc⟩ :=
    solo_copied (cfg.solo bufSize whole) (s := { s with log := s.log ++ items }) hlt
      (h.getIdx_eq hd) hhas
  refine ⟨t, hst, ⟨?_, ?_, ?_, ?_, ?_, ?_, ?_⟩, ?_, ?_⟩
  · rw [hcopy.getIdx, htotal, hget]
  · rw [hcopy.doneCount, htotal, hcount, ← hdone]
  · intro hon
    rw [hcopy.mailbox, if_pos hon, htotal, hmail hon, ← h.mailbox_eq hd hon]
  · rw [hbuf, ← h.msgBuffer, hlen]
    rfl
  · rw [hbuf]
    exact h.cap
  · rw [Dest.copyAt_localBuf, h.localCap]
  · rw [hsent, Dest.copyAt_sent, h.sent]
  · intro hon
    rw [hmail hon, ← h.mailbox_eq hd hon]
  · rw [hpc, ← hdone]
    rfl

/-- A call of `copyToNodeBuf`. -/
theorem solo_copy (h : Matches cfg s d) (hmax : bufSize ≤ cfg.maxBufSize)
    {shipped shared items : List (ItemT α)} (hd : Buffers cfg d shipped shared)
    (hlt : shared.length < bufSize) (hhas : d.localBuf.Has items)
    (hlen : items.length = localBufSize) {d' : Dest α}
    (hret : d.copyToNodeBuf cfg bufSize localBufSize = .returns d') :
    ∃ t, Solo (cfg.solo bufSize whole)
        ({ s with log := s.log ++ items : Node α }.goto 0 (.claim items)) t ∧
      Matches cfg t d' := by
  obtain ⟨u, hsu, hu, hmail, hpc⟩ := h.copyAt whole hmax hd hlt hhas hlen
  rw [hd.copyToNodeBuf_eq hlt hmax hhas hlen rfl] at hret
  cases hret
  by_cases hfull : shared.length + localBufSize = bufSize
  · rw [if_pos hfull] at hpc ⊢
    obtain ⟨t, hst, ht⟩ := hu.awaitShip whole (by omega) .copy (fun _ => rfl) nofun (by omega)
      (fun hon => (hfull.symm.trans (hmail hon).symm).le) hpc
    exact ⟨t, hsu.trans hst, ht.restart⟩
  · rw [if_neg hfull] at hpc ⊢
    have hmatch : Matches cfg u _ := ⟨hu, hpc⟩
    exact ⟨u, hsu, hmatch.restart⟩

/-- The second loop body of `tflush`. -/
theorem solo_flush (h : Matches cfg s d) (hmax : bufSize ≤ cfg.maxBufSize)
    {shipped shared : List (ItemT α)} (hd : Buffers cfg d shipped shared)
    (hlt : shared.length < bufSize) {d' : Dest α} (hret : d.flushShared cfg bufSize = .returns d') :
    ∃ t, Solo (cfg.solo bufSize whole) (s.goto 0 .check) t ∧ Matches cfg t d' := by
  have hget := h.getIdx_eq hd
  have hdone := h.doneCount_eq hd
  by_cases hne : shared = []
  · subst hne
    rw [hd.flushShared_nil] at hret
    cases hret
    have hback : (s.goto 0 .check).run (cfg.solo bufSize whole) 0 = s := by
      have hzero : ¬ (s.goto 0 .check).doneCount ≠ 0 := not_not.mpr hdone
      unfold run
      rw [goto_self]
      dsimp only
      rw [if_neg hzero]
      unfold goto
      rw [Function.update_idem, ← h.idle, Function.update_eq_self]
    exact ⟨s, .single hback.symm, h⟩
  · rw [hd.flushShared_ships hlt hne] at hret
    cases hret
    have hpos := List.length_pos_iff.mpr hne
    have hlock : Solo (cfg.solo bufSize whole) (s.goto 0 .check) _ :=
      solo_lock _ hpos hlt hget hdone
    have hagree : Agrees cfg ({ s with getIdx := shared.length + bufSize : Node α }.goto 0
        (if cfg.mailboxes then .await .flush shared.length 1 0 else .load))
        { d with getIdx := (shared.length + bufSize : ℕ) } :=
      ⟨rfl, h.doneCount, h.mailbox, h.msgBuffer, h.cap, h.localCap, h.sent⟩
    obtain ⟨t, hst, ht⟩ := hagree.awaitShip whole (by omega) .flush nofun (fun _ => hdone) hpos
      (fun hon => (h.mailbox_eq hd hon).ge) (goto_self ..)
    exact ⟨t, hlock.trans hst, ht⟩

/-! ## Calls -/

/-- A run of the machine and what the sequential functions have after the same calls. -/
structure InStep (cfg : Config) (whole : localBufSize ∣ bufSize) (s : Node α) (d : Dest α) :
    Prop where
  reachable : Reachable (cfg.solo bufSize whole) s
  agree : Matches cfg s d
  filled : ∃ shipped shared loc, Filled cfg d shipped shared loc ∧ shared.length < bufSize

theorem InStep.init (hpos : 0 < bufSize) :
    InStep cfg whole (Node.init (cfg.solo bufSize whole) : Node α) (Dest.init cfg) where
  reachable := .refl
  agree := ⟨⟨rfl, rfl, fun _ => rfl, rfl, rfl, rfl, rfl⟩, rfl⟩
  filled := ⟨[], [], [], init_filled cfg, hpos⟩

/-- One item. -/
theorem InStep.insertValue (h : InStep cfg whole s d) (hpos : 0 < bufSize)
    (hmax : bufSize ≤ cfg.maxBufSize) (x : ItemT α) :
    ∃ t d', d.insertValue cfg bufSize x = .returns d' ∧ InStep cfg whole t d' := by
  obtain ⟨hreach, hmatch, shipped, shared, loc, hfilled, hlt⟩ := h
  have hhas : (d.localBuf.setItem loc.length x).Has (loc ++ [x]) := hfilled.localHas.setItem x
  have hlen : (loc ++ [x]).length = loc.length + 1 := by simp
  have hput : Matches cfg s
      { d with localBuf := d.localBuf.setItem loc.length x, localIdx := loc.length + 1 } :=
    ⟨⟨hmatch.getIdx, hmatch.doneCount, hmatch.mailbox, hmatch.msgBuffer, hmatch.cap,
      hmatch.localCap, hmatch.sent⟩, hmatch.idle⟩
  rw [hfilled.insertValue_eq x]
  by_cases hlast : loc.length + 1 = localBufSize
  · rw [if_pos hlast]
    obtain ⟨d', hret, hship, hkeep⟩ :=
      (hfilled.setItem x).copyToNodeBuf hlt hmax hhas (hlen.trans hlast)
    obtain ⟨t, hst, ht⟩ := solo_copy whole hput hmax (hfilled.setItem x) hlt hhas
      (hlen.trans hlast) hret
    have henter : Reachable (cfg.solo bufSize whole)
        ({ s with log := s.log ++ (loc ++ [x]) : Node α }.goto 0 (.claim (loc ++ [x]))) :=
      hreach.tail (.copy Nat.one_pos hmatch.idle (hlen.trans hlast))
    refine ⟨t, d', hret, hst.reachable Nat.one_pos henter, ht, ?_⟩
    by_cases hfull : shared.length + localBufSize = bufSize
    · exact ⟨_, _, _, hship hfull, hpos⟩
    · refine ⟨_, _, _, hkeep hfull, ?_⟩
      obtain ⟨i, hi⟩ := hfilled.whole
      obtain ⟨j, hj⟩ := whole
      rw [List.length_append, hlen]
      unfold localBufSize at hi hj hfull hlast
      omega
  · rw [if_neg hlast]
    refine ⟨s, _, rfl, hreach, hput, shipped, shared, loc ++ [x],
      ⟨hfilled.setItem x, hlen.symm, ?_, hhas⟩, hlt⟩
    have := hfilled.lt
    omega

/-- A flush. -/
theorem InStep.tflush (h : InStep cfg whole s d) (hpos : 0 < bufSize)
    (hmax : bufSize ≤ cfg.maxBufSize) :
    ∃ t d', d.flushLocal.flushShared cfg bufSize = .returns d' ∧ InStep cfg whole t d' := by
  obtain ⟨hreach, hmatch, shipped, shared, loc, hfilled, hlt⟩ := h
  have hlocal : Matches cfg s d.flushLocal := by
    refine ⟨⟨hmatch.getIdx, hmatch.doneCount, hmatch.mailbox, hmatch.msgBuffer, hmatch.cap, rfl,
      ?_⟩, hmatch.idle⟩
    rw [← hmatch.sent]
    simp [Dest.flushLocal, List.filter_append, hmatch.localCap]
  obtain ⟨d', hret, hd'⟩ := hfilled.flushLocal.flushShared hlt
  obtain ⟨t, hst, ht⟩ := solo_flush whole hlocal hmax hfilled.flushLocal hlt hret
  have henter : Reachable (cfg.solo bufSize whole) (s.goto 0 .check) :=
    hreach.tail (.flush Nat.one_pos hmatch.idle)
  exact ⟨t, d', hret, hst.reachable Nat.one_pos henter, ht, _, [], [],
    ⟨hd', (flushShared_keeps hret).2, Nat.succ_pos 15, Message.has_nil _⟩, hpos⟩

end Calls

end Node

/-- What a client does with the PE. -/
inductive Call (α : Type*)
  | insertValue (x : ItemT α)
  | tflush

/-- One call. -/
def call (cfg : Config) (bufSize : ℕ) : Call α → (ℕ → Dest α) → Outcome (ℕ → Dest α)
  | .insertValue x => insertValue cfg bufSize x
  | .tflush => tflush cfg bufSize

/-- The calls listed, in order, until one hangs. -/
def calls (cfg : Config) (bufSize : ℕ) : List (Call α) → (ℕ → Dest α) → Outcome (ℕ → Dest α)
  | [], p => .returns p
  | c :: cs, p => (call cfg bufSize c p).andThen (calls cfg bufSize cs)

section Calls

variable {cfg : Config} {bufSize : ℕ} (whole : localBufSize ∣ bufSize)

theorem solo_call (hpos : 0 < bufSize) (hmax : bufSize ≤ cfg.maxBufSize) (c : Call α)
    {p : ℕ → Dest α} (hp : ∀ n, ∃ s, Node.InStep cfg whole s (p n)) :
    ∃ q, call cfg bufSize c p = .returns q ∧ ∀ n, ∃ s, Node.InStep cfg whole s (q n) := by
  cases c with
  | insertValue x =>
    obtain ⟨s, hs⟩ := hp x.destPe
    obtain ⟨t, d, hret, ht⟩ := hs.insertValue whole hpos hmax x
    refine ⟨Function.update p x.destPe d, ?_, fun n => ?_⟩
    · rw [call, insertValue, onNode, hret]
    · by_cases hn : n = x.destPe
      · rw [hn, Function.update_self]
        exact ⟨t, ht⟩
      · rw [Function.update_of_ne hn]
        exact hp n
  | tflush =>
    have hflush : ∀ n, ∃ t d, (p n).flushLocal.flushShared cfg bufSize = .returns d ∧
        Node.InStep cfg whole t d := by
      intro n
      obtain ⟨s, hs⟩ := hp n
      exact hs.tflush whole hpos hmax
    obtain ⟨q, hq⟩ : ∃ q, tflush cfg bufSize p = .returns q := by
      apply tflush_returns
      intro n _
      obtain ⟨_, d, hret, _⟩ := hflush n
      exact ⟨d, hret⟩
    refine ⟨q, hq, fun n => ?_⟩
    by_cases hn : n < cfg.numNodes
    · obtain ⟨t, d, hret, ht⟩ := hflush n
      have hsame := tflush_spec hq n hn
      rw [hret] at hsame
      cases hsame
      exact ⟨t, ht⟩
    · rw [tflush_other hq (not_lt.mp hn)]
      exact hp n

/-- Any calls of a new PE return, and what they leave for a node, its machine comes to in some
    run. -/
theorem solo_calls (hpos : 0 < bufSize) (hmax : bufSize ≤ cfg.maxBufSize) (cs : List (Call α)) :
    ∃ p, calls cfg bufSize cs (fun _ => Dest.init cfg) = .returns p ∧
      ∀ n, ∃ s, Node.Reachable (cfg.solo bufSize whole) s ∧ Node.Matches cfg s (p n) := by
  have hrun : ∀ p : ℕ → Dest α, (∀ n, ∃ s, Node.InStep cfg whole s (p n)) →
      ∃ q, calls cfg bufSize cs p = .returns q ∧ ∀ n, ∃ s, Node.InStep cfg whole s (q n) := by
    induction cs with
    | nil => exact fun p hp => ⟨p, rfl, hp⟩
    | cons c cs ih =>
      intro p hp
      obtain ⟨q, hq, hnext⟩ := solo_call whole hpos hmax c hp
      rw [calls, hq]
      exact ih q hnext
  obtain ⟨q, hq, hafter⟩ := hrun _ fun _ => ⟨_, .init whole hpos⟩
  refine ⟨q, hq, fun n => ?_⟩
  obtain ⟨s, hs⟩ := hafter n
  exact ⟨s, hs.reachable, hs.agree⟩

end Calls

end PP

end Htram
