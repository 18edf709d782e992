import Mathlib.Algebra.GroupWithZero.Nat
import Htram.Common.Rows

/-!
# Nodes and messages in flight

Numbered nodes with a state each, and a pool of messages: a node changes its state, messages
are sent, and any message in flight is taken out. A quantity spread over the nodes and the
messages is a `total`, and what holds of every node and every message is `All`.

* `total_set`, `total_emit`, `total_take`: what each step does to a total.
* `runs_inv`, `runs_along`, `runs_rest`: what every step keeps, a run keeps.
* `runs_cost`, `runs_credit`, `runs_enabled`: how long a run can be, and that one is possible.
* `runs_rel`: two machines whose steps stay related have related runs.
-/

namespace Network

variable {σ μ M : Type*}

/-- Nodes and messages in flight. -/
structure Net (σ μ : Type*) where
  node : ℕ → σ
  flight : List μ

namespace Net

/-- Node `i` becomes `x`. -/
def set (s : Net σ μ) (i : ℕ) (x : σ) : Net σ μ := { s with node := Function.update s.node i x }

/-- The messages `out` are sent. -/
def emit (s : Net σ μ) (out : List μ) : Net σ μ := { s with flight := s.flight ++ out }

/-- Message `k` arrives. -/
def take (s : Net σ μ) (k : ℕ) : Net σ μ := { s with flight := s.flight.eraseIdx k }

@[simp] theorem set_node_self (s : Net σ μ) (i : ℕ) (x : σ) : (s.set i x).node i = x :=
  Function.update_self ..

theorem set_node_of_ne (s : Net σ μ) {i j : ℕ} (h : j ≠ i) (x : σ) :
    (s.set i x).node j = s.node j := Function.update_of_ne h ..

/-- What is the same in `x` is the same everywhere. -/
theorem set_field {β : Type*} (f : σ → β) (s : Net σ μ) {i : ℕ} {x : σ} (h : f x = f (s.node i))
    (j : ℕ) : f ((s.set i x).node j) = f (s.node j) := Rows.update_field f s.node h j

@[simp] theorem set_flight (s : Net σ μ) (i : ℕ) (x : σ) : (s.set i x).flight = s.flight := rfl

@[simp] theorem emit_node (s : Net σ μ) (out : List μ) : (s.emit out).node = s.node := rfl

@[simp] theorem take_node (s : Net σ μ) (k : ℕ) : (s.take k).node = s.node := rfl

/-! ## Invariants of each node and message -/

/-- `P i` holds of node `i < n`, and `Q` of each message in flight. -/
structure All (n : ℕ) (P : ℕ → σ → Prop) (Q : μ → Prop) (s : Net σ μ) : Prop where
  node : ∀ i < n, P i (s.node i)
  flight : ∀ m ∈ s.flight, Q m

variable {n : ℕ} {P : ℕ → σ → Prop} {Q : μ → Prop} {s : Net σ μ}

theorem All.set (hs : s.All n P Q) {i : ℕ} {x : σ} (hx : P i x) : (s.set i x).All n P Q := by
  refine ⟨fun j hj => ?_, hs.flight⟩
  by_cases h : j = i
  · subst h
    rwa [set_node_self]
  · rw [set_node_of_ne s h]
    exact hs.node j hj

theorem All.emit (hs : s.All n P Q) {out : List μ} (hout : ∀ m ∈ out, Q m) :
    (s.emit out).All n P Q := by
  refine ⟨hs.node, fun m hm => ?_⟩
  rcases List.mem_append.mp hm with hm | hm
  · exact hs.flight m hm
  · exact hout m hm

theorem All.take (hs : s.All n P Q) (k : ℕ) : (s.take k).All n P Q :=
  ⟨hs.node, fun m hm => hs.flight m (List.mem_of_mem_eraseIdx hm)⟩

theorem All.arriving (hs : s.All n P Q) {k : ℕ} {m : μ} (hk : s.flight[k]? = some m) : Q m :=
  hs.flight m (List.mem_of_getElem? hk)

/-! ## Totals -/

/-- The sum of `w` over the first `n` nodes and of `v` over the messages in flight. -/
def total [AddCommMonoid M] (n : ℕ) (w : σ → M) (v : μ → M) (s : Net σ μ) : M :=
  ∑ i ∈ Finset.range n, w (s.node i) + (s.flight.map v).sum

variable [AddCommMonoid M] {w : σ → M} {v : μ → M}

theorem total_set {i : ℕ} (hi : i < n) (x : σ) :
    (s.set i x).total n w v + w (s.node i) = s.total n w v + w x := by
  have hnodes : ∑ j ∈ Finset.range n, w ((s.set i x).node j) + w (s.node i) =
      ∑ j ∈ Finset.range n, w (s.node j) + w x := Rows.sum_update w s.node hi x
  unfold total
  rw [set_flight, add_right_comm, hnodes, add_right_comm]

/-- What a node gains, the total gains. -/
theorem total_set_sub {G : Type*} [AddCommGroup G] {w : σ → G} {v : μ → G} {i : ℕ} (hi : i < n)
    (x : σ) : (s.set i x).total n w v = s.total n w v + (w x - w (s.node i)) := by
  rw [← add_sub_assoc, ← total_set hi x, add_sub_cancel_right]

theorem total_emit (out : List μ) :
    (s.emit out).total n w v = s.total n w v + (out.map v).sum := by
  unfold total emit
  rw [List.map_append, List.sum_append, add_assoc]

theorem total_take {k : ℕ} {m : μ} (hk : s.flight[k]? = some m) :
    (s.take k).total n w v + v m = s.total n w v := by
  have hsum : ∀ (l : List μ) (k : ℕ), l[k]? = some m →
      ((l.eraseIdx k).map v).sum + v m = (l.map v).sum := by
    intro l
    induction l with
    | nil => intro k h; simp at h
    | cons a l ih =>
      intro k h
      cases k with
      | zero =>
        rw [List.getElem?_cons_zero, Option.some.injEq] at h
        rw [List.eraseIdx_cons_zero, List.map_cons, List.sum_cons, h, add_comm]
      | succ k =>
        rw [List.getElem?_cons_succ] at h
        rw [List.eraseIdx_cons_succ, List.map_cons, List.map_cons, List.sum_cons, List.sum_cons,
          add_assoc, ih k h]
  unfold total take
  rw [add_assoc, hsum s.flight k hk]

/-- Messages that do not count. -/
theorem total_nodes : s.total n w (fun _ => 0) = ∑ i ∈ Finset.range n, w (s.node i) := by
  simp [total]

/-- With nothing in flight the messages do not count. -/
theorem total_quiet (h : s.flight = []) :
    s.total n w v = ∑ i ∈ Finset.range n, w (s.node i) := by
  unfold total
  rw [h, List.map_nil, List.sum_nil, add_zero]

end Net

/-! ## Runs -/

variable {S E : Type*} {step : S → E → Option S}

/-- The events, one after the other, each of them enabled. -/
def runs (step : S → E → Option S) : List E → S → Option S
  | [], s => some s
  | e :: es, s => (step s e).bind (runs step es)

theorem runs_cons {e : E} {es : List E} {s t : S} :
    runs step (e :: es) s = some t ↔ ∃ r, step s e = some r ∧ runs step es r = some t :=
  Option.bind_eq_some_iff

theorem runs_append {es es' : List E} {s t : S} :
    runs step (es ++ es') s = some t ↔ ∃ r, runs step es s = some r ∧ runs step es' r = some t := by
  induction es generalizing s with
  | nil => simp [runs]
  | cons e es ih =>
    rw [List.cons_append, runs_cons]
    simp only [ih, runs_cons]
    constructor
    · rintro ⟨r, he, q, hq, ht⟩
      exact ⟨q, ⟨r, he, hq⟩, ht⟩
    · rintro ⟨q, ⟨r, he, hq⟩, ht⟩
      exact ⟨r, he, q, hq, ht⟩

/-- A state that a run is seen to end in. -/
theorem of_check {P : S → Prop} [DecidablePred P] {o : Option S}
    (h : (o.any fun t => decide (P t)) = true) : ∃ t, o = some t ∧ P t := by
  obtain ⟨t, ht, hp⟩ := (Option.any_eq_true _ _).mp h
  exact ⟨t, ht, of_decide_eq_true hp⟩

theorem runs_inv {I : S → Prop} {ok : E → Prop}
    (hstep : ∀ s e t, ok e → I s → step s e = some t → I t) :
    ∀ {es : List E} {s t : S}, (∀ e ∈ es, ok e) → I s → runs step es s = some t → I t := by
  intro es
  induction es with
  | nil =>
    intro s t _ hs h
    cases h
    exact hs
  | cons e es ih =>
    intro s t hes hs h
    obtain ⟨r, he, hr⟩ := runs_cons.mp h
    exact ih (fun e' h' => hes e' (List.mem_cons_of_mem _ h'))
      (hstep s e r (hes e (List.mem_cons_self ..)) hs he) hr

/-- An invariant that mentions the events to come. -/
theorem runs_rest {I : List E → S → Prop}
    (hstep : ∀ e es s t, I (e :: es) s → step s e = some t → I es t) :
    ∀ {es : List E} {s t : S}, I es s → runs step es s = some t → I [] t := by
  intro es
  induction es with
  | nil =>
    intro s t hs h
    cases h
    exact hs
  | cons e es ih =>
    intro s t hs h
    obtain ⟨r, he, hr⟩ := runs_cons.mp h
    exact ih (hstep e es s r hs he) hr

/-- Every event costs, and no event raises what is left to pay with. -/
theorem runs_cost {I : S → Prop} {left : S → ℕ} {cost : E → ℕ}
    (hstep : ∀ s e t, I s → step s e = some t → I t ∧ left t + cost e ≤ left s) :
    ∀ {es : List E} {s t : S}, I s → runs step es s = some t →
      left t + (es.map cost).sum ≤ left s := by
  intro es
  induction es with
  | nil =>
    intro s t _ h
    cases h
    exact le_rfl
  | cons e es ih =>
    intro s t hs h
    obtain ⟨r, he, hr⟩ := runs_cons.mp h
    obtain ⟨hr', hcost⟩ := hstep s e r hs he
    have hrest := ih hr' hr
    rw [List.map_cons, List.sum_cons]
    omega

/-- A run of events each of which can take place. -/
theorem runs_enabled {I : List E → S → Prop}
    (hstep : ∀ e es s, I (e :: es) s → ∃ t, step s e = some t ∧ I es t) :
    ∀ {es : List E} {s : S}, I es s → ∃ t, runs step es s = some t := by
  intro es
  induction es with
  | nil => exact fun _ => ⟨_, rfl⟩
  | cons e es ih =>
    intro s hs
    obtain ⟨r, he, hr⟩ := hstep e es s hs
    obtain ⟨t, ht⟩ := ih hr
    exact ⟨t, runs_cons.mpr ⟨r, he, ht⟩⟩

/-- Two machines that start related and whose steps are enabled together and stay related. -/
theorem runs_rel {T : Type*} {step' : T → E → Option T} {R : S → T → Prop}
    (hstep : ∀ s t e, R s t → Option.Rel R (step s e) (step' t e)) :
    ∀ {es : List E} {s : S} {t : T}, R s t → Option.Rel R (runs step es s) (runs step' es t) := by
  intro es
  induction es with
  | nil =>
    intro s t h
    exact Option.Rel.some h
  | cons e es ih =>
    intro s t h
    have he := hstep s t e h
    unfold runs
    generalize step s e = o at he ⊢
    generalize step' t e = o' at he ⊢
    rcases he with h' | _
    · exact ih h'
    · exact Option.Rel.none

/-- Each event of the run that takes place meets `ok` in the state that it finds. -/
def Along (step : S → E → Option S) (ok : S → E → Prop) : List E → S → Prop
  | [], _ => True
  | e :: es, s => ∀ t, step s e = some t → ok s e ∧ Along step ok es t

/-- Every event is paid for, by what is left to pay with and by what it brings in itself. -/
theorem runs_credit {I : ℕ → S → Prop} {ok : S → E → Prop} {cost credit : E → ℕ}
    (hstep : ∀ n s e t, ok s e → I n s → step s e = some t →
      ∃ n', I n' t ∧ n' + cost e ≤ n + credit e) :
    ∀ {es : List E} {n : ℕ} {s t : S}, Along step ok es s → I n s → runs step es s = some t →
      ∃ n', I n' t ∧ n' + (es.map cost).sum ≤ n + (es.map credit).sum := by
  intro es
  induction es with
  | nil =>
    intro n s t _ hs h
    cases h
    exact ⟨n, hs, le_rfl⟩
  | cons e es ih =>
    intro n s t hes hs h
    obtain ⟨r, he, hr⟩ := runs_cons.mp h
    obtain ⟨hok, hes⟩ := hes r he
    obtain ⟨m, hm, hpaid⟩ := hstep n s e r hok hs he
    obtain ⟨n', hn', hrest⟩ := ih hes hm hr
    refine ⟨n', hn', ?_⟩
    rw [List.map_cons, List.sum_cons, List.map_cons, List.sum_cons]
    omega

/-- An invariant that implies `ok` of every enabled event. -/
theorem along_of_inv {I : S → Prop} {ok : S → E → Prop} {allowed : E → Prop}
    (hstep : ∀ s e t, allowed e → I s → step s e = some t → ok s e ∧ I t) :
    ∀ {es : List E} {s : S}, (∀ e ∈ es, allowed e) → I s → Along step ok es s := by
  intro es
  induction es with
  | nil => intro s _ _; trivial
  | cons e es ih =>
    intro s hes hs t he
    obtain ⟨hok, ht⟩ := hstep s e t (hes e (List.mem_cons_self ..)) hs he
    exact ⟨hok, ih (fun e' h => hes e' (List.mem_cons_of_mem _ h)) ht⟩

end Network
