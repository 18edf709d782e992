import Htram.Pp.Cluster

/-!
# A node between two events

Where the PEs of a node are in their calls, what is in `local_buf`, and that every buffer that they
share went through a run of `Htram.Pp.Shared`.

* `Host.Sound`: the invariant, which knows the PEs that inserted nothing after their last flush.
* `Host.Sound.insertValue`, `Host.Sound.flush`, `Host.Sound.turned`, `Host.Sound.hand`: the events.
-/

namespace Htram

namespace PP

variable {α : Type*} {cfg : ClusterConfig}

/-! ## The invariant of a node -/

namespace Task

/-- `local_buf` for node `d` has left, since the PE last began to flush. -/
def Emptied (d : ℕ) : Task → Prop
  | .idle | .flushShared _ | .shipping _ => True
  | .flushLocal e => d < e
  | .copying _ => False

/-- The PE has looked at the buffer it shares for node `d`, since it last began to flush. -/
def Looked (d : ℕ) : Task → Prop
  | .idle => True
  | .flushShared e => d < e
  | .shipping e => d ≤ e
  | _ => False

/-- The PE is in one of the functions for the buffer that it shares for node `d`. -/
def At (d : ℕ) (t : Task) : Prop := t = .copying d ∨ t = .shipping d

end Task

/-- What a PE has for itself. -/
structure Worker.Sound (cfg : ClusterConfig) (w : Worker α) : Prop where
  short : ∀ d, w.task ≠ .copying d → (w.localBuf d).length < localBufSize
  full : ∀ d, w.task = .copying d → (w.localBuf d).length = localBufSize
  inRange : ∀ d, w.task.At d → d < cfg.numNodes
  goes : ∀ d, ∀ x ∈ w.localBuf d, cfg.nodeOf x.destPe = d
  count : w.totRecvCount = w.delivered.length

/-- A PE that was in no call has put an item into `local_buf`. -/
theorem Worker.Sound.put {w : Worker α} {d : ℕ} (hw : w.Sound cfg) (hidle : w.task = .idle)
    (hd : d < cfg.numNodes) {x : ItemT α} (hx : cfg.nodeOf x.destPe = d) {buf : List (ItemT α)}
    (hbuf : buf = w.localBuf d ++ [x]) {t : Task}
    (ht : buf.length ≠ localBufSize ∧ t = .idle ∨ buf.length = localBufSize ∧ t = .copying d) :
    { w with localBuf := Function.update w.localBuf d buf, task := t : Worker α }.Sound cfg := by
  have hshort := hw.short d (by simp [hidle])
  have hlen : buf.length = (w.localBuf d).length + 1 := by rw [hbuf, List.length_append]; rfl
  refine ⟨fun e hne => ?_, fun e he => ?_, fun e he => ?_, fun e => ?_, hw.count⟩
  · dsimp only at hne ⊢
    by_cases hed : e = d
    · subst hed
      rw [Function.update_self]
      obtain ⟨hlen', -⟩ := ht.resolve_right fun hfull => hne hfull.2
      omega
    · rw [Function.update_of_ne hed]
      exact hw.short e (by simp [hidle])
  · rcases ht with ⟨-, rfl⟩ | ⟨hfull, rfl⟩
    · cases he
    · obtain rfl : d = e := by simpa using he
      dsimp only
      rw [Function.update_self]
      exact hfull
  · rcases ht with ⟨-, rfl⟩ | ⟨-, rfl⟩
    · rcases he with he | he <;> cases he
    · rcases he with he | he <;> cases he
      exact hd
  · dsimp only
    by_cases hed : e = d
    · subst hed
      rw [Function.update_self, hbuf]
      intro y hy
      rcases List.mem_append.mp hy with hy | hy
      · exact hw.goes e y hy
      · rw [List.mem_singleton.mp hy]
        exact hx
    · rw [Function.update_of_ne hed]
      exact hw.goes e

/-- A PE that copies nothing goes on. -/
theorem Worker.Sound.go {w : Worker α} (hw : w.Sound cfg) {t : Task}
    (hfrom : ∀ d, w.task ≠ .copying d) (hto : ∀ d, t ≠ .copying d)
    (hat : ∀ d, t.At d → d < cfg.numNodes) : { w with task := t : Worker α }.Sound cfg :=
  ⟨fun d _ => hw.short d (hfrom d), fun d he => absurd he (hto d), hat, hw.goes, hw.count⟩

/-- `local_buf` for node `d` starts again. -/
theorem Worker.Sound.empty {w : Worker α} {d : ℕ} (hw : w.Sound cfg) {t : Task}
    (hfrom : ∀ e ≠ d, w.task ≠ .copying e) (hto : ∀ e, ¬ t.At e) :
    { w with localBuf := Function.update w.localBuf d [], task := t : Worker α }.Sound cfg := by
  refine ⟨fun e _ => ?_, fun e he => absurd (.inl he) (hto e), fun e he => absurd he (hto e),
    fun e => ?_, hw.count⟩
  · dsimp only
    by_cases he : e = d
    · subst he
      rw [Function.update_self]
      exact Nat.succ_pos 15
    · rw [Function.update_of_ne he]
      exact hw.short e (hfrom e he)
  · dsimp only
    by_cases he : e = d
    · subst he
      rw [Function.update_self]
      exact fun _ hx => absurd hx List.not_mem_nil
    · rw [Function.update_of_ne he]
      exact hw.goes e

/-- What holds of a PE that inserted nothing after its last flush. -/
structure Worker.Flushed (cfg : ClusterConfig) (w : Worker α) : Prop where
  done : ∀ d, w.task ≠ .copying d
  emptied : ∀ d < cfg.numNodes, w.task.Emptied d → w.localBuf d = []

/-- Node `n`, of which the PEs in `done` inserted nothing after their last flush. -/
structure Host.Sound (cfg : ClusterConfig) (n : ℕ) (done : Set ℕ) (h : Host α) : Prop where
  myPe : ∀ r, (h.worker r).myPe = n * cfg.numPes + r
  worker : ∀ r, (h.worker r).Sound cfg
  flushed : ∀ r ∈ done, (h.worker r).Flushed cfg
  ends : ∀ d < cfg.numNodes, ∃ quiet, Ends cfg.toNodeConfig quiet (h.shared d) ∧
    ∀ r ∈ done, (h.worker r).task.Looked d → r ∈ quiet
  inCall : ∀ d < cfg.numNodes, ∀ r, (h.shared d).pc r ≠ .idle ↔ (h.worker r).task.At d
  goes : ∀ d < cfg.numNodes, ∀ x ∈ (h.shared d).log, cfg.nodeOf x.destPe = d

theorem Task.At.unique {t : Task} {d e : ℕ} (hd : t.At d) (he : t.At e) : d = e := by
  rcases hd with rfl | rfl <;> rcases he with he | he <;> cases he <;> rfl

namespace Host

variable {n r d : ℕ} {done done' : Set ℕ} {h : Host α} {w : Worker α} {s : Node α}

theorem Sound.reachable (hs : h.Sound cfg n done) (hd : d < cfg.numNodes) :
    Node.Reachable cfg.toNodeConfig (h.shared d) := by
  obtain ⟨_, hends, -⟩ := hs.ends d hd
  exact hends.reachable

/-- A PE that is in no call is at rest in every buffer. -/
theorem Sound.rests (hs : h.Sound cfg n done) (hd : d < cfg.numNodes)
    (hno : ¬ (h.worker r).task.At d) : (h.shared d).pc r = .idle := by
  by_contra hne
  exact hno ((hs.inCall d hd r).mp hne)

@[simp] theorem setWorker_self (h : Host α) (r : ℕ) (w : Worker α) :
    (h.setWorker r w).worker r = w := Function.update_self ..

theorem setWorker_of_ne (h : Host α) {q r : ℕ} (hq : q ≠ r) (w : Worker α) :
    (h.setWorker r w).worker q = h.worker q := Function.update_of_ne hq ..

@[simp] theorem setShared_self (h : Host α) (d : ℕ) (s : Node α) :
    (h.setShared d s).shared d = s := Function.update_self ..

theorem setShared_of_ne (h : Host α) {d e : ℕ} (he : e ≠ d) (s : Node α) :
    (h.setShared d s).shared e = h.shared e := Function.update_of_ne he ..

/-- An event of PE `r` that leaves the shared buffers alone. -/
theorem Sound.setWorker (hs : h.Sound cfg n done) (hpe : w.myPe = (h.worker r).myPe)
    (hw : w.Sound cfg) (hdone : ∀ q ∈ done', q ≠ r → q ∈ done)
    (hflushed : r ∈ done' → w.Flushed cfg)
    (hlooked : ∀ d < cfg.numNodes, r ∈ done' → w.task.Looked d →
      r ∈ done ∧ (h.worker r).task.Looked d)
    (hat : ∀ d, (h.worker r).task.At d ↔ w.task.At d) : (h.setWorker r w).Sound cfg n done' where
  myPe := by
    intro q
    by_cases hq : q = r
    · subst hq
      rw [setWorker_self, hpe, hs.myPe]
    · rw [setWorker_of_ne h hq, hs.myPe]
  worker := by
    intro q
    by_cases hq : q = r
    · subst hq
      rw [setWorker_self]
      exact hw
    · rw [setWorker_of_ne h hq]
      exact hs.worker q
  flushed := by
    intro q hmem
    by_cases hq : q = r
    · subst hq
      rw [setWorker_self]
      exact hflushed hmem
    · rw [setWorker_of_ne h hq]
      exact hs.flushed q (hdone q hmem hq)
  ends := by
    intro d hd
    obtain ⟨quiet, hends, hquiet⟩ := hs.ends d hd
    refine ⟨quiet, hends, fun q hmem hlook => ?_⟩
    by_cases hq : q = r
    · subst hq
      rw [setWorker_self] at hlook
      obtain ⟨hmem, hlook⟩ := hlooked d hd hmem hlook
      exact hquiet q hmem hlook
    · rw [setWorker_of_ne h hq] at hlook
      exact hquiet q (hdone q hmem hq) hlook
  inCall := by
    intro d hd q
    by_cases hq : q = r
    · subst hq
      rw [setWorker_self]
      exact (hs.inCall d hd q).trans (hat d)
    · rw [setWorker_of_ne h hq]
      exact hs.inCall d hd q
  goes := hs.goes

/-- An event of PE `r` that leaves all shared buffers alone but that for node `d`. -/
theorem Sound.setShared (hs : h.Sound cfg n done) (hpe : w.myPe = (h.worker r).myPe)
    (hw : w.Sound cfg) (hdone : ∀ q ∈ done', q ≠ r → q ∈ done)
    (hflushed : r ∈ done' → w.Flushed cfg)
    (hlooked : ∀ e < cfg.numNodes, e ≠ d → r ∈ done' → w.task.Looked e →
      r ∈ done ∧ (h.worker r).task.Looked e)
    (hat : ∀ e ≠ d, ¬ (h.worker r).task.At e) (hat' : ∀ e ≠ d, ¬ w.task.At e)
    (hpcs : ∀ q ≠ r, s.pc q = (h.shared d).pc q)
    (hcall : s.pc r ≠ .idle ↔ w.task.At d)
    (hends : d < cfg.numNodes → ∃ quiet, Ends cfg.toNodeConfig quiet s ∧
      (∀ q ∈ done, q ≠ r → (h.worker q).task.Looked d → q ∈ quiet) ∧
      (r ∈ done' → w.task.Looked d → r ∈ quiet))
    (hgoes : ∀ x ∈ s.log, cfg.nodeOf x.destPe = d) :
    ((h.setWorker r w).setShared d s).Sound cfg n done' where
  myPe := by
    intro q
    by_cases hq : q = r
    · subst hq
      exact (congrArg Worker.myPe (setWorker_self ..)).trans (hpe.trans (hs.myPe q))
    · exact (congrArg Worker.myPe (setWorker_of_ne h hq w)).trans (hs.myPe q)
  worker := by
    intro q
    show ((h.setWorker r w).worker q).Sound cfg
    by_cases hq : q = r
    · subst hq
      rw [setWorker_self]
      exact hw
    · rw [setWorker_of_ne h hq]
      exact hs.worker q
  flushed := by
    intro q hmem
    show ((h.setWorker r w).worker q).Flushed cfg
    by_cases hq : q = r
    · subst hq
      rw [setWorker_self]
      exact hflushed hmem
    · rw [setWorker_of_ne h hq]
      exact hs.flushed q (hdone q hmem hq)
  ends := by
    intro e he
    show ∃ quiet, _ ∧ ∀ q ∈ done', ((h.setWorker r w).worker q).task.Looked e → q ∈ quiet
    by_cases hed : e = d
    · subst hed
      obtain ⟨quiet, hquiet, hothers, hself⟩ := hends he
      rw [setShared_self]
      refine ⟨quiet, hquiet, fun q hmem hlook => ?_⟩
      by_cases hq : q = r
      · subst hq
        rw [setWorker_self] at hlook
        exact hself hmem hlook
      · rw [setWorker_of_ne h hq] at hlook
        exact hothers q (hdone q hmem hq) hq hlook
    · obtain ⟨quiet, hends, hquiet⟩ := hs.ends e he
      rw [setShared_of_ne _ hed]
      refine ⟨quiet, hends, fun q hmem hlook => ?_⟩
      by_cases hq : q = r
      · subst hq
        rw [setWorker_self] at hlook
        obtain ⟨hmem, hlook⟩ := hlooked e he hed hmem hlook
        exact hquiet q hmem hlook
      · rw [setWorker_of_ne h hq] at hlook
        exact hquiet q (hdone q hmem hq) hlook
  inCall := by
    intro e he q
    show _ ↔ ((h.setWorker r w).worker q).task.At e
    by_cases hed : e = d
    · subst hed
      rw [setShared_self]
      by_cases hq : q = r
      · subst hq
        rw [setWorker_self]
        exact hcall
      · rw [setWorker_of_ne h hq, hpcs q hq]
        exact hs.inCall e he q
    · rw [setShared_of_ne _ hed]
      have hold := hs.inCall e he q
      by_cases hq : q = r
      · subst hq
        rw [setWorker_self]
        exact hold.trans (iff_of_false (hat e hed) (hat' e hed))
      · rw [setWorker_of_ne h hq]
        exact hold
  goes := by
    intro e he x hx
    by_cases hed : e = d
    · subst hed
      rw [setShared_self] at hx
      exact hgoes x hx
    · rw [setShared_of_ne _ hed] at hx
      exact hs.goes e he x hx

/-! ## The events of a node -/

/-- `insertValue` on a PE that is in no call. -/
theorem insertValue_eq (hs : h.Sound cfg n done) (hidle : (h.worker r).task = .idle) (x : ItemT α)
    {buf : List (ItemT α)} (hbuf : buf = (h.worker r).localBuf d ++ [x]) :
    h.insertValue x d r =
      if buf.length = localBufSize then
        (h.setWorker r
          { h.worker r with
            localBuf := Function.update (h.worker r).localBuf d buf
            task := .copying d }).setShared d
          ({ h.shared d with log := (h.shared d).log ++ buf : Node α }.goto r (.claim buf))
      else h.setWorker r
        { h.worker r with localBuf := Function.update (h.worker r).localBuf d buf } := by
  have hshort := (hs.worker r).short d (by simp [hidle])
  have hle : ((h.worker r).localBuf d).length ≤ localBufSize - 1 := by omega
  unfold insertValue
  dsimp only
  rw [if_pos hle, ← hbuf]

theorem Sound.insertValue (hs : h.Sound cfg n done) (hr : r < cfg.numPes) (hd : d < cfg.numNodes)
    (hidle : (h.worker r).task = .idle) {x : ItemT α} (hx : cfg.nodeOf x.destPe = d) :
    (h.insertValue x d r).Sound cfg n (done \ {r}) := by
  have hw := hs.worker r
  have hno : r ∉ done \ {r} := fun hmem => hmem.2 rfl
  rw [insertValue_eq hs hidle x rfl]
  split_ifs with hfull
  · have hput := hw.put hidle hd hx rfl (.inr ⟨hfull, rfl⟩)
    apply hs.setShared
    · rfl
    · exact hput
    · exact fun q hmem _ => hmem.1
    · exact fun hmem => absurd hmem hno
    · exact fun _ _ _ hmem => absurd hmem hno
    · intro e _
      simp [hidle, Task.At]
    · intro e he
      simp [Task.At, Ne.symm he]
    · exact fun q hq => Function.update_of_ne hq ..
    · simp [Node.goto, Task.At]
    · intro _
      obtain ⟨quiet, hends, hquiet⟩ := hs.ends d hd
      have hrests := hs.rests (r := r) hd (by simp [hidle, Task.At])
      refine ⟨_, hends.copy hr hrests hfull, fun q hmem hq hlook => ?_, fun hmem => absurd hmem hno⟩
      exact ⟨hquiet q hmem hlook, hq⟩
    · intro y hy
      rcases List.mem_append.mp hy with hy | hy
      · exact hs.goes d hd y hy
      · have hgoes := hput.goes d y
        dsimp only at hgoes
        rw [Function.update_self] at hgoes
        exact hgoes hy
  · apply hs.setWorker
    · rfl
    · have hput := hw.put hidle hd hx rfl (.inl ⟨hfull, rfl⟩)
      rw [← hidle] at hput
      exact hput
    · exact fun q hmem _ => hmem.1
    · exact fun hmem => absurd hmem hno
    · exact fun _ _ hmem => absurd hmem hno
    · exact fun e => Iff.rfl

theorem access_eq (cfg : ClusterConfig) (r d : ℕ) (w : Worker α) (h : Host α) :
    (h.access cfg r d w).1 =
      (h.setWorker r (if (((h.shared d).run cfg.toNodeConfig r).pc r).isIdle then w
        else h.worker r)).setShared d ((h.shared d).run cfg.toNodeConfig r) := by
  have hself : h.setWorker r (h.worker r) = h := by
    unfold setWorker
    rw [Function.update_eq_self]
  unfold access
  dsimp only
  split_ifs
  · rfl
  · rw [hself]

/-- An access of PE `r`, which becomes `w` when it has returned. -/
theorem Sound.access (hs : h.Sound cfg n done) (hr : r < cfg.numPes) (hat : (h.worker r).task.At d)
    (hpe : w.myPe = (h.worker r).myPe) (hw : w.Sound cfg) (hflushed : r ∈ done → w.Flushed cfg)
    (hlooked : ∀ e, r ∈ done → w.task.Looked e → (h.worker r).task.Looked e)
    (hno : ∀ e, ¬ w.task.At e) : (h.access cfg r d w).1.Sound cfg n done := by
  have hd := (hs.worker r).inRange d hat
  obtain ⟨quiet, hends, hquiet⟩ := hs.ends d hd
  have hbecomes : ∀ w' : Worker α, w'.myPe = (h.worker r).myPe → w'.Sound cfg →
      (r ∈ done → w'.Flushed cfg) →
      (∀ e, r ∈ done → w'.task.Looked e → (h.worker r).task.Looked e) →
      (∀ e ≠ d, ¬ w'.task.At e) →
      (((h.shared d).run cfg.toNodeConfig r).pc r ≠ .idle ↔ w'.task.At d) →
      ((h.setWorker r w').setShared d ((h.shared d).run cfg.toNodeConfig r)).Sound cfg n done := by
    intro w' hpe hw hflushed hlooked hat' hcall
    apply hs.setShared hpe hw (fun q hmem _ => hmem) hflushed
    · exact fun e _ _ hmem hlook => ⟨hmem, hlooked e hmem hlook⟩
    · exact fun e he htask => he (htask.unique hat)
    · exact hat'
    · exact fun q hq => Node.run_pc _ _ hq
    · exact hcall
    · intro _
      refine ⟨quiet, hends.run hr, fun q hmem _ hlook => hquiet q hmem hlook, fun hmem hlook => ?_⟩
      exact hquiet r hmem (hlooked d hmem hlook)
    · rw [Node.run_log]
      exact hs.goes d hd
  rw [access_eq]
  split_ifs with hidle
  · exact hbecomes w hpe hw hflushed hlooked (fun e _ => hno e)
      (iff_of_false (not_not.mpr (Pc.isIdle_iff.mp hidle)) (hno d))
  · exact hbecomes _ rfl (hs.worker r) (hs.flushed r) (fun _ _ => id)
      (fun e he htask => he (htask.unique hat))
      (iff_of_true (fun hpc => hidle (Pc.isIdle_iff.mpr hpc)) hat)

/-- What PE `r` does next in its call. -/
inductive Turned (cfg : ClusterConfig) (r : ℕ) (h : Host α) : Host α × List (Packet α) → Prop
  | copies {d : ℕ} (htask : (h.worker r).task = .copying d) :
    Turned cfg r h (h.access cfg r d
      { h.worker r with localBuf := Function.update (h.worker r).localBuf d [], task := .idle })
  | empties {d : ℕ} (htask : (h.worker r).task = .flushLocal d) (hd : d < cfg.numNodes) :
    Turned cfg r h (h.setWorker r
        { h.worker r with
          localBuf := Function.update (h.worker r).localBuf d [], task := .flushLocal (d + 1) },
      [.small d ((h.worker r).localBuf d)])
  | emptied {d : ℕ} (htask : (h.worker r).task = .flushLocal d) (hd : cfg.numNodes ≤ d) :
    Turned cfg r h (h.setWorker r { h.worker r with task := .flushShared 0 }, [])
  | looks {d : ℕ} (htask : (h.worker r).task = .flushShared d) (hd : d < cfg.numNodes) :
    Turned cfg r h ((h.setWorker r { h.worker r with task := .shipping d }).setShared d
      ((h.shared d).goto r .check), [])
  | looked {d : ℕ} (htask : (h.worker r).task = .flushShared d) (hd : cfg.numNodes ≤ d) :
    Turned cfg r h (h.setWorker r { h.worker r with task := .idle }, [])
  | ships {d : ℕ} (htask : (h.worker r).task = .shipping d) :
    Turned cfg r h (h.access cfg r d { h.worker r with task := .flushShared (d + 1) })

theorem turned_of_turn {res : Host α × List (Packet α)} (hturn : h.turn cfg r = some res) :
    Turned cfg r h res := by
  unfold turn at hturn
  dsimp only at hturn
  cases htask : (h.worker r).task with
  | idle =>
    rw [htask] at hturn
    cases hturn
  | copying d =>
    rw [htask] at hturn
    cases hturn
    exact .copies htask
  | flushLocal d =>
    rw [htask] at hturn
    dsimp only at hturn
    split_ifs at hturn with hd
    · cases hturn
      exact .empties htask hd
    · cases hturn
      exact .emptied htask (not_lt.mp hd)
  | flushShared d =>
    rw [htask] at hturn
    dsimp only at hturn
    split_ifs at hturn with hd
    · cases hturn
      exact .looks htask hd
    · cases hturn
      exact .looked htask (not_lt.mp hd)
  | shipping d =>
    rw [htask] at hturn
    cases hturn
    exact .ships htask

/-- The event of a PE in a call. -/
theorem Sound.turned (hs : h.Sound cfg n done) (hr : r < cfg.numPes)
    {res : Host α × List (Packet α)} (hturn : Turned cfg r h res) : res.1.Sound cfg n done := by
  have hw := hs.worker r
  cases hturn with
  | @copies d htask =>
    have hno : r ∉ done := fun hmem => (hs.flushed r hmem).done d htask
    apply hs.access hr (.inl htask)
    · rfl
    · apply hw.empty
      · exact fun e he htask' => he (by simpa [htask, eq_comm] using htask')
      · rintro e (he | he) <;> cases he
    · exact fun hmem => absurd hmem hno
    · exact fun _ hmem => absurd hmem hno
    · rintro e (he | he) <;> cases he
  | @empties d htask hd =>
    apply hs.setWorker
    · rfl
    · apply hw.empty
      · simp [htask]
      · rintro e (he | he) <;> cases he
    · exact fun q hmem _ => hmem
    · intro hmem
      refine ⟨by simp, fun e he hemptied => ?_⟩
      dsimp only
      by_cases hed : e = d
      · rw [hed, Function.update_self]
      · have hless : e < d := lt_of_le_of_ne (Nat.lt_succ_iff.mp hemptied) hed
        rw [Function.update_of_ne hed]
        exact (hs.flushed r hmem).emptied e he (by simpa [htask, Task.Emptied] using hless)
    · rintro e he hmem ⟨⟩
    · simp [htask, Task.At]
  | @emptied d htask hd =>
    apply hs.setWorker
    · rfl
    · apply hw.go
      · simp [htask]
      · simp
      · rintro e (he | he) <;> cases he
    · exact fun q hmem _ => hmem
    · intro hmem
      refine ⟨by simp, fun e he _ => ?_⟩
      exact (hs.flushed r hmem).emptied e he (by simpa [htask, Task.Emptied] using he.trans_le hd)
    · rintro e he hmem ⟨⟩
    · simp [htask, Task.At]
  | @looks d htask hd =>
    have hrests := hs.rests (r := r) hd (by simp [htask, Task.At])
    apply hs.setShared
    · rfl
    · apply hw.go
      · simp [htask]
      · simp
      · rintro e (he | he) <;> cases he
        exact hd
    · exact fun q hmem _ => hmem
    · intro hmem
      refine ⟨by simp, fun e he _ => ?_⟩
      exact (hs.flushed r hmem).emptied e he (by simp [htask, Task.Emptied])
    · intro e he hed hmem hlook
      refine ⟨hmem, ?_⟩
      have hless : e < d := lt_of_le_of_ne hlook hed
      simpa [htask, Task.Looked] using hless
    · intro e _
      simp [htask, Task.At]
    · intro e he
      simp [Task.At, Ne.symm he]
    · exact fun q hq => Function.update_of_ne hq ..
    · simp [Node.goto, Task.At]
    · intro _
      obtain ⟨quiet, hends, hquiet⟩ := hs.ends d hd
      refine ⟨_, hends.flush hr hrests, fun q hmem _ hlook => ?_, fun _ _ => Set.mem_insert ..⟩
      exact Set.mem_insert_of_mem _ (hquiet q hmem hlook)
    · exact hs.goes d hd
  | @looked d htask hd =>
    apply hs.setWorker
    · rfl
    · apply hw.go
      · simp [htask]
      · simp
      · rintro e (he | he) <;> cases he
    · exact fun q hmem _ => hmem
    · intro hmem
      refine ⟨by simp, fun e he _ => ?_⟩
      exact (hs.flushed r hmem).emptied e he (by simp [htask, Task.Emptied])
    · intro e he hmem _
      exact ⟨hmem, by simpa [htask, Task.Looked] using he.trans_le hd⟩
    · simp [htask, Task.At]
  | @ships d htask =>
    apply hs.access hr (.inr htask)
    · rfl
    · apply hw.go
      · simp [htask]
      · simp
      · rintro e (he | he) <;> cases he
    · intro hmem
      refine ⟨by simp, fun e he _ => ?_⟩
      exact (hs.flushed r hmem).emptied e he (by simp [htask, Task.Emptied])
    · intro e hmem hlook
      simpa [htask, Task.Looked] using Nat.lt_succ_iff.mp hlook
    · rintro e (he | he) <;> cases he

/-- A flush begins. -/
theorem Sound.flush (hs : h.Sound cfg n done) (hidle : (h.worker r).task = .idle) :
    (h.setWorker r { h.worker r with task := .flushLocal 0 }).Sound cfg n (insert r done) := by
  apply hs.setWorker
  · rfl
  · apply (hs.worker r).go
    · simp [hidle]
    · simp
    · rintro e (he | he) <;> cases he
  · exact fun q hmem hq => hmem.resolve_left hq
  · intro _
    refine ⟨by simp, fun e _ hemptied => ?_⟩
    exact absurd hemptied (Nat.not_lt_zero e)
  · rintro e he hmem ⟨⟩
  · simp [hidle, Task.At]

/-- The client is handed items. -/
theorem Sound.hand (hs : h.Sound cfg n done) (r : ℕ) (items : List α) :
    (h.hand r items).Sound cfg n done := by
  have hw := hs.worker r
  apply hs.setWorker
  · rfl
  · refine ⟨hw.short, hw.full, hw.inRange, hw.goes, ?_⟩
    simp [hw.count]
  · exact fun q hmem _ => hmem
  · exact fun hmem => ⟨(hs.flushed r hmem).done, (hs.flushed r hmem).emptied⟩
  · exact fun e _ hmem hlook => ⟨hmem, hlook⟩
  · exact fun e => Iff.rfl

theorem Sound.mono (hs : h.Sound cfg n done) (hsub : done' ⊆ done) : h.Sound cfg n done' where
  myPe := hs.myPe
  worker := hs.worker
  flushed := fun r hr => hs.flushed r (hsub hr)
  ends := by
    intro d hd
    obtain ⟨quiet, hends, hquiet⟩ := hs.ends d hd
    exact ⟨quiet, hends, fun r hr => hquiet r (hsub hr)⟩
  inCall := hs.inCall
  goes := hs.goes

end Host

end PP

end Htram
