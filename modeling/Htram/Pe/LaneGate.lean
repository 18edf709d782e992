import Htram.Pe.LaneInv

/-!
# Which items may leave the buckets

* `Path.gated`: an item in a buffer was admitted when it entered, and a message carries
  fillers only as the flushes promise.
* `Path.plain`: without a flush there are no fillers at all.
-/

namespace Htram

variable {α : Type*}

namespace Item

/-- The item was admitted when it entered the buffer. -/
def Admitted (x : Item α) : Prop :=
  x.fill.filler = false ∧ ∃ b : ℕ, x.fill.bucket = some b ∧ (b : ℤ) ≤ x.fill.threshold

/-- The item was put in by a flush, from the lowest bucket that held something, when
    nothing that was admitted was held any more. -/
def Filler (x : Item α) : Prop :=
  x.fill.filler = true ∧ ∃ b : ℕ, x.fill.bucket = some b ∧ x.fill.threshold < b ∧
    (∀ c < b, x.fill.held c = 0) ∧ x.fill.held b ≠ 0

theorem Admitted.not_filler {x : Item α} (hx : x.Admitted) : ¬ x.Filler := by
  intro h
  have := h.1
  rw [hx.1] at this
  cases this

end Item

/-- A message carries admitted items and fillers; with a filler it carries an admitted
    item too, and at most half a buffer in all. -/
structure Sent.Gated (s : Sent α) : Prop where
  items : ∀ x ∈ s.msg.items, x.Admitted ∨ x.Filler
  filled : (∃ x ∈ s.msg.items, x.Filler) →
    (∃ x ∈ s.msg.items, x.Admitted) ∧ s.msg.items.length ≤ s.bufSize / 2

/-- A message without fillers. -/
def Sent.Plain (s : Sent α) : Prop := ∀ x ∈ s.msg.items, x.Admitted

theorem Sent.Plain.gated {s : Sent α} (hs : s.Plain) : s.Gated where
  items := fun x hx => Or.inl (hs x hx)
  filled := fun ⟨x, hx, hf⟩ => absurd hf (hs x hx).not_filler

/-- The buffer holds admitted items only, and each message is as the flushes promise. -/
structure Lane.Gated (L : Lane α) : Prop where
  buffer : ∀ x ∈ L.buffer, x.Admitted
  sent : ∀ s ∈ L.sent, s.Gated

theorem Fillers.fillers {cfg : Config α} {t : ℤ} {held held' : ℕ → List (UInt64 × α)}
    {fs : List (Item α)} (hf : Fillers cfg t held fs held') : ∀ x ∈ fs, x.Filler := by
  induction hf with
  | nil => simp
  | @snoc held' _ b _ _ rest _ habove hlow hb ih =>
    intro x hx
    rcases List.mem_append.mp hx with hx | hx
    · exact ih x hx
    · rw [List.mem_singleton.mp hx]
      refine ⟨rfl, b, rfl, habove, fun c hc => ?_, ?_⟩
      · show (held' c).length = 0
        rw [hlow c hc]; rfl
      · show (held' b).length ≠ 0
        rw [hb]; simp

theorem Lane.Gated.put {L L' : Lane α} (hL : L.Gated) (hsent : L'.sent = L.sent) {x : Item α}
    (hbuffer : L'.buffer = L.buffer ++ [x]) (hx : x.Admitted) : L'.Gated := by
  refine ⟨fun y hy => ?_, by rw [hsent]; exact hL.sent⟩
  rw [hbuffer] at hy
  rcases List.mem_append.mp hy with hy | hy
  · exact hL.buffer y hy
  · rw [List.mem_singleton.mp hy]; exact hx

theorem Lane.Gated.ship {L L' : Lane α} (hL : L.Gated) (hbuffer : L'.buffer = []) {s : Sent α}
    (hsent : L'.sent = L.sent ++ [s]) (hs : s.Gated) : L'.Gated := by
  refine ⟨by simp [hbuffer], fun m hm => ?_⟩
  rw [hsent] at hm
  rcases List.mem_append.mp hm with hm | hm
  · exact hL.sent m hm
  · rw [List.mem_singleton.mp hm]; exact hs

theorem Lane.Gated.plain {L : Lane α} (hL : L.Gated) {s : Sent α}
    (hitems : s.msg.items = L.buffer) : s.Plain := fun x hx => hL.buffer x (hitems ▸ hx)

theorem Move.gated {cfg : Config α} {R : Rules} {xs : List (Input α)} {L L' : Lane α}
    (hm : Move cfg R xs L L') (hxs : ∀ x ∈ xs, x.isRaw = false) (hL : L.Gated) : L'.Gated := by
  cases hm with
  | direct _ x b pe hb => exact hL.put rfl rfl ⟨rfl, b, rfl, hb⟩
  | raw _ x pe => exact absurd (hxs _ (List.mem_singleton_self _)) (by simp [Input.isRaw])
  | take _ b k x rest hb _ => exact hL.put rfl rfl ⟨rfl, b, rfl, hb⟩
  | ship _ s full counted _ hitems => exact hL.ship rfl rfl (hL.plain hitems).gated
  | shipFilled _ s fs held' _ hne hfs _ hhalf hitems hsize =>
    refine hL.ship rfl rfl ⟨fun x hx => ?_, fun _ => ⟨?_, ?_⟩⟩
    · rw [hitems] at hx
      exact (List.mem_append.mp hx).imp (hL.buffer x) (hfs.fillers x)
    · obtain ⟨x, hx⟩ := List.exists_mem_of_ne_nil _ hne
      exact ⟨x, hitems ▸ List.mem_append_left _ hx, hL.buffer x hx⟩
    · rw [hitems, List.length_append, hsize]
      exact hhalf
  | hold | fold | foldMove | retune | coarsen | resize | newRound => exact ⟨hL.buffer, hL.sent⟩

theorem Path.gated {cfg : Config α} {R : Rules} {xs : List (Input α)} {L L' : Lane α}
    (hp : Path cfg R xs L L') (hxs : ∀ x ∈ xs, x.isRaw = false) (hL : L.Gated) : L'.Gated :=
  hp.invariant (fun _ _ _ hm hxs => hm.gated hxs) hxs hL

/-! ## Without a flush -/

/-- The messages that `L'` has shipped since `L`. -/
def Lane.newSent (L L' : Lane α) : List (Sent α) := L'.sent.drop L.sent.length

theorem Move.sent {cfg : Config α} {R : Rules} (hR : R.flush = false) {xs : List (Input α)}
    {L L' : Lane α} (hm : Move cfg R xs L L') (hL : L.Gated) :
    ∃ new, L'.sent = L.sent ++ new ∧ ∀ s ∈ new, s.Plain := by
  cases hm with
  | ship _ s full counted _ hitems =>
    exact ⟨[s], rfl, fun m hm => List.mem_singleton.mp hm ▸ hL.plain hitems⟩
  | shipFilled _ _ _ _ hflush => rw [hR] at hflush; cases hflush
  | direct | raw | take | hold | fold | foldMove | retune | coarsen | resize | newRound =>
    exact ⟨[], (List.append_nil _).symm, by simp⟩

/-- Outside a flush, no message with a filler is shipped. -/
theorem Path.plain {cfg : Config α} {R : Rules} (hR : R.flush = false) {xs : List (Input α)}
    {L L' : Lane α} (hp : Path cfg R xs L L') (hxs : ∀ x ∈ xs, x.isRaw = false)
    (hL : L.Gated) : ∀ s ∈ L.newSent L', s.Plain := by
  have key : L'.Gated ∧ ∃ new, L'.sent = L.sent ++ new ∧ ∀ s ∈ new, s.Plain := by
    refine hp.invariant (P := fun x => x.isRaw = false)
      (I := fun L' => L'.Gated ∧ ∃ new, L'.sent = L.sent ++ new ∧ ∀ s ∈ new, s.Plain) ?_ hxs
      ⟨hL, [], (List.append_nil _).symm, by simp⟩
    rintro ys M M' hm hys ⟨hg, new, hnew, hplain⟩
    obtain ⟨new', hnew', hplain'⟩ := hm.sent hR hg
    refine ⟨hm.gated hys hg, new ++ new', by rw [hnew', hnew, List.append_assoc], ?_⟩
    intro s hs
    exact (List.mem_append.mp hs).elim (hplain s) (hplain' s)
  obtain ⟨-, new, hnew, hplain⟩ := key
  unfold Lane.newSent
  rw [hnew, List.drop_left]
  exact hplain

end Htram
