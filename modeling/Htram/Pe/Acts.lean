import Htram.Pe.Steps

/-!
# A call, destination by destination

The destinations of a PE share the settings and nothing else: a call that returns has done
to each of them a function of that destination and of the settings.

* `HTram.step_acts`: what a call does to the settings and to a destination.
* `HTram.run_keeps`: what each call keeps, a run keeps.
-/

namespace Htram

variable {α F : Type*}

namespace Op

variable [ReleaseArith F]

/-- `changeThreshold` changes nothing. -/
def SameSettings (k : Knobs F) (direct t : ℤ) (selectivity : F) : Prop :=
  t = k.tramThreshold ∧ direct = k.directThreshold ∧ ReleaseArith.eq selectivity k.selectivity

instance (k : Knobs F) (direct t : ℤ) (selectivity : F) :
    Decidable (SameSettings k direct t selectivity) :=
  inferInstanceAs (Decidable (_ ∧ _ ∧ _))

/-- The settings after a call that returns. -/
def settings (k : Knobs F) : Op α F → Knobs F
  | .changeThreshold direct t selectivity =>
    if SameSettings k direct t selectivity then k else k.retuned direct t selectivity
  | .coarsenBuckets factor _ => if factor < 2 then k else k.coarsened factor.toNat
  | .setBufferSize newSize => if newSize = k.bufSize then k else k.resized newSize
  | _ => k

theorem settings_mode (op : Op α F) (k : Knobs F) :
    (op.settings k).agg = k.agg ∧ (op.settings k).combining = k.combining := by
  cases op with
  | changeThreshold | coarsenBuckets | setBufferSize =>
    dsimp only [settings]
    split_ifs
    · exact ⟨rfl, rfl⟩
    · exact ⟨rfl, rfl⟩
  | _ => exact ⟨rfl, rfl⟩

/-- What a call that returns does to destination `d`. -/
def act [Inhabited α] (cfg : Config α) (k : Knobs F) (d : ℕ) : Op α F → Dest α → Dest α
  | .send x b =>
    if cfg.destOf k.agg (cfg.getDestProc x) = d then Dest.sendItem cfg k x b (cfg.getDestProc x)
    else id
  | .sendTo x b pe => if cfg.destOf k.agg pe = d then Dest.sendItem cfg k x b pe else id
  | .insertValue x pe =>
    if cfg.destOf k.agg pe = d then Dest.insertValue cfg k x pe (pe % cfg.nodeSize) else id
  | .insertValueWPs x pe =>
    if cfg.destOf k.agg pe = d then Dest.insertValueWPsTo k x pe none else id
  | .changeThreshold direct t selectivity =>
    if SameSettings k direct t selectivity then id
    else fun x => (x.retune cfg k t).releaseAbove cfg (k.retuned direct t selectivity)
  | .coarsenBuckets factor keepTop =>
    if factor < 2 then id
    else fun x =>
      (x.coarsen cfg k factor.toNat keepTop).releaseAbove cfg (k.coarsened factor.toNat)
  | .setBufferSize newSize =>
    if newSize = k.bufSize then id
    else if ¬ k.combining ∧ k.agg ≠ .WsP then Dest.resize cfg (k.resized newSize)
    else fun x => { x with msgBuffer := newHTramMessage newSize }
  | .tflush idleflush => Dest.tflush cfg k idleflush
  | .flushStale => if k.agg ≠ .WsP then Dest.flushIfStale cfg k else Dest.tflush cfg k false
  | .flushIdle elapsed => if k.agg ≠ .WsP ∧ elapsed then Dest.flushIfAny cfg k else id

end Op

namespace HTram

/-- A loop over destinations that returns has run `f` for each of them. -/
theorem eachDest_returns {f : Dest α → Dest α} :
    ∀ {ds : List ℕ} {p q : HTram α F}, ds.Nodup → eachDest f ds p = .returns q →
      q.knobs = p.knobs ∧ ∀ d, q.dest d = if d ∈ ds then f (p.dest d) else p.dest d := by
  intro ds
  induction ds with
  | nil =>
    intro p q _ hq
    cases hq
    exact ⟨rfl, fun d => by simp⟩
  | cons c ds ih =>
    intro p q hnd hq
    obtain ⟨hc, hnd⟩ := List.nodup_cons.mp hnd
    rw [eachDest, onDest] at hq
    split_ifs at hq
    · cases hq
    · obtain ⟨hknobs, hdest⟩ := ih hnd hq
      refine ⟨hknobs, fun d => ?_⟩
      rw [hdest]
      by_cases hd : d = c
      · subst hd
        simp [setDest, hc]
      · simp [setDest, hd]

theorem forDest_returns {cfg : Config α} {f : Dest α → Dest α} {p q : HTram α F}
    (hq : p.forDest cfg f = .returns q) :
    q.knobs = p.knobs ∧ ∀ d < p.destCount cfg, q.dest d = f (p.dest d) := by
  obtain ⟨hknobs, hdest⟩ := eachDest_returns List.nodup_range hq
  refine ⟨hknobs, fun d hd => ?_⟩
  rw [hdest, if_pos (List.mem_range.mpr hd)]

/-- The same after new settings and a first loop. -/
theorem mapDest_forDest_returns {cfg : Config α} {k : Knobs F} {f g : Dest α → Dest α}
    {p q : HTram α F} (hagg : k.agg = p.knobs.agg)
    (hq : (p.mapDest cfg k f).forDest cfg g = .returns q) :
    q.knobs = k ∧ ∀ d < p.destCount cfg, q.dest d = g (f (p.dest d)) := by
  obtain ⟨hknobs, hdest⟩ := forDest_returns hq
  refine ⟨hknobs, fun d hd => ?_⟩
  have hd' : d < (p.mapDest cfg k f).destCount cfg := by
    unfold destCount
    rw [show (p.mapDest cfg k f).knobs.agg = p.knobs.agg from hagg]
    exact hd
  rw [hdest d hd', mapDest_dest k f hd]

theorem setDest_apply (c : ℕ) (x : Dest α) (p : HTram α F) (d : ℕ) :
    (p.setDest c x).dest d = if c = d then x else p.dest d := by
  unfold setDest
  by_cases h : c = d
  · subst h
    simp
  · rw [if_neg h]
    exact Function.update_of_ne (Ne.symm h) ..

variable [ReleaseArith F] [Inhabited α]

theorem sendItemPrioDeferredDestTo_acts {cfg : Config α} {p q : HTram α F} {x : α} {b pe : ℕ}
    (hq : p.sendItemPrioDeferredDestTo cfg x b pe = .returns q) :
    q.knobs = p.knobs ∧ ∀ d, q.dest d = (if cfg.destOf p.knobs.agg pe = d then
      Dest.sendItem cfg p.knobs x b pe else id) (p.dest d) := by
  unfold sendItemPrioDeferredDestTo onDest at hq
  dsimp only at hq
  split_ifs at hq
  · cases hq
    refine ⟨rfl, fun d => ?_⟩
    rw [setDest_apply]
    split_ifs with h
    · rw [h]
    · rfl

/-- A call that returns has done to each destination what it does to that one. -/
theorem step_acts {cfg : Config α} {p q : HTram α F} {op : Op α F}
    (hq : p.step cfg op = .returns q) :
    q.knobs = op.settings p.knobs ∧
      ∀ d < p.destCount cfg, q.dest d = op.act cfg p.knobs d (p.dest d) := by
  cases op with
  | send x b =>
    obtain ⟨hknobs, hdest⟩ := sendItemPrioDeferredDestTo_acts hq
    exact ⟨hknobs, fun d _ => hdest d⟩
  | sendTo x b pe =>
    obtain ⟨hknobs, hdest⟩ := sendItemPrioDeferredDestTo_acts hq
    exact ⟨hknobs, fun d _ => hdest d⟩
  | insertValue x pe =>
    cases hq
    refine ⟨rfl, fun d _ => ?_⟩
    unfold insertValue
    dsimp only [Op.act]
    rw [setDest_apply]
    split_ifs with h
    · rw [h]
    · rfl
  | insertValueWPs x pe =>
    cases hq
    refine ⟨rfl, fun d _ => ?_⟩
    unfold insertValueWPs
    dsimp only [Op.act]
    rw [setDest_apply]
    split_ifs with h
    · rw [h]
    · rfl
  | changeThreshold direct t selectivity =>
    have hq : p.changeThreshold cfg direct t selectivity = .returns q := hq
    unfold changeThreshold at hq
    dsimp only [Op.settings, Op.act]
    split_ifs at hq with hsame
    · have hsame : Op.SameSettings p.knobs direct t selectivity := hsame
      cases hq
      simp [hsame]
    · have hsame : ¬ Op.SameSettings p.knobs direct t selectivity := hsame
      simp only [if_neg hsame]
      exact mapDest_forDest_returns rfl hq
  | coarsenBuckets factor keepTop =>
    have hq : p.coarsenBuckets cfg factor keepTop = .returns q := hq
    unfold coarsenBuckets at hq
    dsimp only [Op.settings, Op.act]
    split_ifs at hq ⊢
    · cases hq
      exact ⟨rfl, fun d _ => rfl⟩
    · exact mapDest_forDest_returns rfl hq
  | setBufferSize newSize =>
    have hq : p.setBufferSize cfg newSize = .returns q := hq
    unfold setBufferSize at hq
    dsimp only [Op.settings, Op.act]
    split_ifs at hq ⊢
    · cases hq
      exact ⟨rfl, fun d _ => rfl⟩
    · cases hq
      exact ⟨rfl, fun d hd => mapDest_dest _ _ hd⟩
    · cases hq
      exact ⟨rfl, fun d hd => mapDest_dest _ _ hd⟩
  | tflush idleflush => exact forDest_returns hq
  | flushStale =>
    have hq : p.flushStale cfg = .returns q := hq
    unfold flushStale at hq
    dsimp only [Op.settings, Op.act]
    split_ifs at hq ⊢
    · exact forDest_returns hq
    · exact forDest_returns hq
  | flushIdle elapsed =>
    have hq : p.flushIdle cfg elapsed = .returns q := hq
    unfold flushIdle at hq
    dsimp only [Op.settings, Op.act]
    split_ifs at hq ⊢
    · exact forDest_returns hq
    · cases hq
      exact ⟨rfl, fun d _ => rfl⟩

/-- What every call of a run keeps, the run keeps. -/
theorem run_keeps {cfg : Config α} {I : HTram α F → Prop} {ops : List (Op α F)}
    (hstep : ∀ op ∈ ops, ∀ p q, I p → p.step cfg op = .returns q → I q) :
    ∀ {p q : HTram α F}, I p → p.run cfg ops = .returns q → I q := by
  induction ops with
  | nil =>
    intro p q hp hq
    cases hq
    exact hp
  | cons op ops ih =>
    intro p q hp hq
    rw [run] at hq
    cases hr : p.step cfg op with
    | returns r =>
      rw [hr] at hq
      have hfirst := hstep op (List.mem_cons_self ..) p r hp hr
      exact ih (fun op' h => hstep op' (List.mem_cons_of_mem _ h)) hfirst hq
    | aborts => rw [hr] at hq; cases hq
    | hangs r => rw [hr] at hq; cases hq

end HTram

end Htram
