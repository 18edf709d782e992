import Htram.Hold.Release

/-!
# A hold whose stamps wrap

A reference that a fold leaves behind stays in its list until a release reaches it, and
the stamp of its entry moves on by two for each item that comes and goes. After `2 ^ 32`
stamps the reference is taken for current.

* `Worn.early`: it then names an entry that is held in another bucket, and a release takes
  the item from there.
* `Worn.hangs`: or it names a free entry, and the release does not end.
-/

namespace Htram

open ProbeTable

namespace CombiningHold

variable {α : Type*}

/-! ## Single calls -/

/-- An item whose key is not held takes a fresh entry. -/
theorem insert_new [Inhabited α] {h : CombiningHold α} (ht : TableInv h) (ops : HoldOps α)
    (item : α) (hnew : ∀ x, h.Held x → h.keys x ≠ ops.key item) (bucket : ℕ)
    {h' : CombiningHold α} {e : ℕ} (ha : h.allocEntry = (h', e)) :
    ∃ mask slots, h.insert ops item bucket =
        ({ h' with
            mask := mask
            slots := slots
            keys := Function.update h'.keys e (ops.key item)
            buckets := Function.update h'.buckets e bucket
            stamps := Function.update h'.stamps e (h'.stamps e + 1)
            payloads := Function.update h'.payloads e item
            count := h'.count + 1
            live := Function.update h'.live bucket (h'.live bucket + 1)
            lists := Function.update h'.lists bucket
              (h'.lists bucket ++ [Ref.mk e (h'.stamps e + 1)])
            lowest := min bucket h'.lowest
            inserted := h'.inserted + 1 }, ⟨false, -1, bucket⟩) ∧
      TableInv (h.insert ops item bucket).1 := by
  rcases insert_cases ht ops item bucket with ⟨x, hx, hkey, -⟩ | ⟨slot, hit, hno, hslot, hend, hins⟩
  · exact absurd hkey (hnew x hx)
  · obtain ⟨mask, slots, hadd, hti⟩ := add_spec ht hno hslot hend item bucket ha
    rw [hins]
    exact ⟨mask, slots, Prod.ext hadd (add_result ..), hti⟩

/-- An item whose key is held folds into that key's entry. -/
theorem insert_held [Inhabited α] {h : CombiningHold α} (ht : TableInv h) (ops : HoldOps α)
    (item : α) {e : ℕ} (he : h.Held e) (hkey : h.keys e = ops.key item) (bucket : ℕ) :
    h.insert ops item bucket = h.fold ops e item bucket := by
  rcases insert_cases ht ops item bucket with ⟨x, hx, hkx, hins⟩ | ⟨slot, hit, hno, -⟩
  · rw [hins, ht.keyInj x e hx he (hkx.trans hkey.symm)]
  · exact absurd hkey (hno e he)

/-- A bucket with one reference, which names a held entry. -/
theorem releaseBuckets_one {h : CombiningHold α} (ht : TableInv h) {b e : ℕ} {s : UInt32}
    (hb : h.lists b = [⟨e, s⟩]) (hs : h.stamps e = s) (he : h.Held e) :
    ∃ slots, ∃ h' : CombiningHold α, h' =
        { h with
          slots := slots
          stamps := Function.update h.stamps e (h.stamps e + 1)
          free := e :: h.free
          count := h.count - 1
          live := Function.update h.live b (h.live b - 1)
          lists := Function.update h.lists b [] } ∧ TableInv h' ∧
      ∀ n limit, releaseBuckets (n + 1) b (limit + 1) h =
        ((releaseBuckets n (b + 1) limit h').1,
          ⟨h.payloads e, h.buckets e, h.heldCount⟩ :: (releaseBuckets n (b + 1) limit h').2) := by
  obtain ⟨⟨slots, hslots⟩, hti, -⟩ := erase_spec ht he
  refine ⟨slots, _, rfl, ?_, fun n limit => ?_⟩
  · rw [hslots] at hti
    exact ⟨hti.cap, hti.table, hti.mem, hti.keyInj, hti.freeLt, hti.freeNodup, hti.count, hti.load,
      hti.stuck⟩
  · have hlist := releaseList_cons (h := h) (b := b) (r := ⟨e, s⟩) [] limit hs hti.stuck
    rw [releaseBuckets, if_neg (Nat.succ_ne_zero _), hb, hlist]
    have hstuck : h.stuck = false := ht.stuck
    simp [releaseList, taken, hslots, hstuck]

/-- A bucket with one reference, which matches the stamp of an entry that is not held:
    the loop of `erase` does not end. -/
theorem releaseBuckets_hangs {h : CombiningHold α} (ht : TableInv h) {b e : ℕ} {s : UInt32}
    (hb : h.lists b = [⟨e, s⟩]) (hs : h.stamps e = s) (he : ¬ h.Held e) (n limit : ℕ) :
    releaseBuckets (n + 1) b (limit + 1) h =
      ({ h with stuck := true }, [⟨h.payloads e, h.buckets e, h.heldCount⟩]) := by
  have hno : ∀ fuel p, scan (adv h.mask) (fun p => (h.slots p).any fun s => s.entry = e) fuel p =
      none := by
    intro fuel
    induction fuel with
    | zero => intro p; rfl
    | succ fuel ih =>
      intro p
      rw [scan, if_neg, ih]
      intro hp
      obtain ⟨t, ht', hte⟩ := (Option.any_eq_true _ _).mp hp
      exact he ((ht.mem e).mp ⟨p, t, ht', by simpa using hte⟩)
  have herase : h.erase e = { h with stuck := true } := by unfold erase; rw [hno]
  rw [releaseBuckets, if_neg (Nat.succ_ne_zero _), hb, releaseList, if_neg (not_not.mpr hs)]
  simp [herase]

/-- `release`, from what its first loop returns. -/
theorem release_of {h h' : CombiningHold α} {out : List (Emitted α)} {high limit : ℤ} {n : ℕ}
    (hn : (min high (h.bucketCount - 1) + 1 - h.lowest).toNat = n)
    (hrel : releaseBuckets n h.lowest limit.toNat h = (h', out)) (hs : h'.stuck = false) :
    h.release high limit = (raiseLowest (h'.bucketCount - h'.lowest) h', out) := by
  unfold release
  dsimp only
  rw [hn, hrel]
  show (if h'.stuck = true then _ else _) = _
  rw [if_neg (by simp [hs])]

theorem release_of_stuck {h h' : CombiningHold α} {out : List (Emitted α)} {high limit : ℤ}
    {n : ℕ} (hn : (min high (h.bucketCount - 1) + 1 - h.lowest).toNat = n)
    (hrel : releaseBuckets n h.lowest limit.toNat h = (h', out)) (hs : h'.stuck = true) :
    h.release high limit = (h', out) := by
  unfold release
  dsimp only
  rw [hn, hrel]
  exact if_pos hs

theorem raiseLowest_stop {h : CombiningHold α} (hb : h.live h.lowest ≠ 0) (n : ℕ) :
    raiseLowest n h = h := by
  cases n with
  | zero => rfl
  | succ n => rw [raiseLowest, if_neg fun hc => hb hc.2]

theorem raiseLowest_step {h : CombiningHold α} (hlt : h.lowest < h.bucketCount)
    (hb : h.live h.lowest = 0) (n : ℕ) :
    raiseLowest (n + 1) h = raiseLowest n
      { h with lists := Function.update h.lists h.lowest [], lowest := h.lowest + 1 } := by
  rw [raiseLowest, if_pos ⟨hlt, hb⟩]

/-! ## A stamp that comes round -/

/-- A hold of two entries and eight buckets, the first with key 0 and stamp 1. -/
structure Pair (s : UInt32) (free : List ℕ) (lists : ℕ → List Ref) (live : ℕ → ℤ) (lowest : ℕ)
    (h : CombiningHold KeyValue) : Prop where
  table : TableInv h
  pool : h.pool = 2
  free : h.free = free
  key : h.keys 0 = 0
  stamp : h.stamps 0 = 1
  stamp' : h.stamps 1 = s
  lists : h.lists = lists
  live : h.live = live
  lowest : h.lowest = lowest
  bucketCount : h.bucketCount = 8

/-- Entry 0 in bucket 2, and a reference to entry 1 left behind in bucket 3. -/
def wornLists (b : ℕ) : List Ref := if b = 2 then [⟨0, 1⟩] else if b = 3 then [⟨1, 1⟩] else []

def wornLive (b : ℕ) : ℤ := if b = 2 then 1 else 0

theorem update_wornLists : Function.update (Function.update (fun _ => ([] : List Ref)) 2 [⟨0, 1⟩])
    3 [⟨1, 1⟩] = wornLists := by
  funext b
  unfold wornLists
  by_cases h2 : b = 2 <;> by_cases h3 : b = 3 <;> simp_all

theorem update_wornLive : Function.update (Function.update (fun _ => (0 : ℤ)) 2 1) 3 1 =
    Function.update wornLive 3 1 := by
  have h : Function.update (fun _ => (0 : ℤ)) 2 1 = wornLive := by
    funext b
    unfold wornLive
    by_cases h2 : b = 2 <;> simp_all
  rw [h]

/-- The second entry is free and has stamp `s`. -/
def Worn (s : UInt32) : CombiningHold KeyValue → Prop := Pair s [1] wornLists wornLive 2

/-- The second entry holds an item with key 1 in bucket 1. -/
structure Busy (s : UInt32) (h : CombiningHold KeyValue) : Prop extends
    Pair s [] (Function.update wornLists 1 [⟨1, s⟩]) (Function.update wornLive 1 1) 1 h where
  payload : h.payloads 1 = ⟨1, 1⟩

theorem Pair.put {s : UInt32} {lists : ℕ → List Ref} {live : ℕ → ℤ} {lowest : ℕ}
    {h : CombiningHold KeyValue} (hp : Pair s [1] lists live lowest h) (v : ℤ) (b : ℕ) :
    ∃ h', h.insert minOps ⟨1, v⟩ b = (h', ⟨false, -1, b⟩) ∧
      Pair (s + 1) [] (Function.update lists b (lists b ++ [⟨1, s + 1⟩]))
        (Function.update live b (live b + 1)) (min b lowest) h' ∧
      h'.keys 1 = 1 ∧ h'.buckets 1 = b ∧ h'.payloads 1 = ⟨1, v⟩ ∧ h'.retired = h.retired := by
  obtain ⟨mask, slots, hins, hti⟩ := insert_new hp.table minOps ⟨1, v⟩
    (by
      rintro x ⟨hx, hfree⟩
      rw [hp.pool] at hx
      rw [hp.free] at hfree
      obtain rfl : x = 0 := by simp at hfree; omega
      rw [hp.key]
      exact (by decide : (0 : UInt64) ≠ 1)) b
    (show h.allocEntry = ({ h with free := [] }, 1) by rw [allocEntry, hp.free])
  rw [hins] at hti
  refine ⟨_, hins, ⟨hti, hp.pool, rfl, ?_, ?_, ?_, ?_, ?_, ?_, hp.bucketCount⟩, ?_, ?_, ?_, rfl⟩
  · simpa using hp.key
  · simpa using hp.stamp
  · simp [hp.stamp']
  · simp [hp.lists, hp.stamp']
  · simp [hp.live]
  · simp [hp.lowest]
  · simp; rfl
  · simp
  · simp

/-- A smaller item of the key moves to another bucket. -/
theorem Pair.move {s : UInt32} {lists : ℕ → List Ref} {live : ℕ → ℤ} {lowest : ℕ}
    {h : CombiningHold KeyValue} (hp : Pair s [] lists live lowest h) (hkey : h.keys 1 = 1) {v : ℤ}
    {b : ℕ} (hbucket : h.buckets 1 = b) (hpay : h.payloads 1 = ⟨1, v⟩) (v' : ℤ) (hv : v' < v)
    (b' : ℕ) (hb : b' ≠ b) :
    ∃ h', h.insert minOps ⟨1, v'⟩ b' = (h', ⟨true, b, b'⟩) ∧
      Pair (s + 1) [] (Function.update lists b' (lists b' ++ [⟨1, s + 1⟩]))
        (Function.update (Function.update live b (live b - 1)) b'
          (Function.update live b (live b - 1) b' + 1)) (min b' lowest) h' ∧
      h'.buckets 1 = b' ∧ h'.payloads 1 = ⟨1, v'⟩ ∧ h'.retired = h.retired ++ [⟨1, v⟩] := by
  have hheld : h.Held 1 := ⟨by rw [hp.pool]; decide, by rw [hp.free]; simp⟩
  have hins := insert_held hp.table minOps ⟨1, v'⟩ hheld hkey b'
  obtain ⟨hti, -⟩ := fold_tableInv hp.table minOps 1 ⟨1, v'⟩ b'
  have hcomb : minOps.combine (h.payloads 1) ⟨1, v'⟩ = (⟨1, v'⟩, ⟨1, v⟩, true) := by
    rw [hpay]
    exact if_pos hv
  unfold fold at hins hti
  rw [hcomb] at hins hti
  dsimp only at hins hti
  rw [if_pos ⟨rfl, by rw [hbucket]; exact hb⟩] at hins hti
  refine ⟨_, ?_, ⟨hti, hp.pool, hp.free, hp.key, ?_, ?_, ?_, ?_, ?_, hp.bucketCount⟩, ?_, ?_, ?_⟩
  · rw [hins, hbucket]; simp
  · simpa using hp.stamp
  · simp [hp.stamp']
  · simp [hp.lists, hp.stamp']
  · simp [hp.live, hbucket]
  · simp [hp.lowest]
  · simp
  · simp
  · simp

/-- The first item takes entry 0, the second entry 1, and the third moves it. -/
theorem init_busy :
    ∃ h₁ h₂ h₃, (init 8).insert minOps ⟨0, 2⟩ 2 = (h₁, ⟨false, -1, 2⟩) ∧ h₁.stuck = false ∧
      h₁.insert minOps ⟨1, 3⟩ 3 = (h₂, ⟨false, -1, 3⟩) ∧ h₂.stuck = false ∧
      h₂.insert minOps ⟨1, 1⟩ 1 = (h₃, ⟨true, 3, 1⟩) ∧ Busy 2 h₃ ∧ h₃.retired = [⟨1, 3⟩] := by
  obtain ⟨T, hT, -, -⟩ := init_eq (α := KeyValue) 8
  have hti₀ : TableInv (init 8 : CombiningHold KeyValue) := init_tableInv 8
  rw [hT] at hti₀ ⊢
  obtain ⟨m₁, T₁, hins₁, hti₁⟩ := insert_new hti₀ minOps ⟨0, 2⟩
    (fun e he => absurd he.1 (Nat.not_lt_zero e)) 2 rfl
  rw [hins₁] at hti₁
  obtain ⟨m₂, T₂, hins₂, hti₂⟩ := insert_new hti₁ minOps ⟨1, 3⟩
    (by
      rintro e ⟨he, -⟩
      obtain rfl : e = 0 := Nat.lt_one_iff.mp he
      exact (by decide : (0 : UInt64) ≠ 1)) 3 rfl
  rw [hins₂] at hti₂
  have hp : Pair 1 [] wornLists (Function.update wornLive 3 1) 2 _ :=
    ⟨hti₂, rfl, rfl, rfl, rfl, rfl, update_wornLists, update_wornLive, rfl, rfl⟩
  obtain ⟨h₃, hins₃, hp₃, -, hpay, hret⟩ := hp.move rfl (b := 3) rfl (v := 3) rfl 1 (by decide) 1
    (by decide)
  refine ⟨_, _, h₃, hins₁, hti₁.stuck, hins₂, hti₂.stuck, hins₃, ⟨?_, hpay⟩, hret⟩
  have hlive : Function.update (Function.update (Function.update wornLive 3 1) 3 0) 1 1 =
      Function.update wornLive 1 1 := by
    rw [Function.update_idem, show Function.update wornLive 3 0 = wornLive from
      Function.update_eq_self 3 wornLive]
  rw [← hlive]
  exact hp₃

/-- The release of bucket 1. -/
theorem Busy.release {s : UInt32} {h : CombiningHold KeyValue} (hb : Busy s h) :
    ∃ h' n, h.release 1 4 = (h', [⟨⟨1, 1⟩, h.buckets 1, n⟩]) ∧ Worn (s + 1) h' ∧
      h'.retired = h.retired := by
  have hlist : h.lists 1 = [⟨1, s⟩] := by rw [hb.lists, Function.update_self]
  obtain ⟨slots, h', hh', hti, hrel⟩ := releaseBuckets_one hb.table hlist hb.stamp'
    ⟨by rw [hb.pool]; decide, by rw [hb.free]; simp⟩
  have hlow' : h'.lowest = 1 := by rw [hh']; exact hb.lowest
  have hcount' : h'.bucketCount = 8 := by rw [hh']; exact hb.bucketCount
  have hlive' : h'.live = wornLive := by
    rw [hh']
    simp only [hb.live, Function.update_self, Function.update_idem, sub_self]
    exact Function.update_eq_self 1 wornLive
  have hlists' : h'.lists = wornLists := by
    rw [hh']
    simp only [hb.lists, Function.update_idem]
    exact Function.update_eq_self 1 wornLists
  have hraise : raiseLowest (h'.bucketCount - h'.lowest) h' = { h' with lowest := 2 } := by
    have hseven : h'.bucketCount - h'.lowest = 7 := by rw [hcount', hlow']
    have hsame : Function.update h'.lists 1 [] = h'.lists := by
      rw [hlists']
      exact Function.update_eq_self 1 wornLists
    have hstop : h'.live 2 ≠ 0 := by rw [hlive']; decide
    rw [hseven, raiseLowest_step (by omega) (by rw [hlow', hlive']; rfl),
      raiseLowest_stop (by simpa only [hlow'] using hstop), hlow', hsame]
  have hbuckets : releaseBuckets 1 h.lowest 4 h =
      (h', [⟨h.payloads 1, h.buckets 1, h.heldCount⟩]) := by
    rw [hb.lowest, hrel 0 3]
    rfl
  refine ⟨{ h' with lowest := 2 }, h.heldCount, ?_, ?_, ?_⟩
  · rw [release_of (n := 1) (by rw [hb.bucketCount, hb.lowest]; rfl) hbuckets hti.stuck,
      hraise, hb.payload]
  · refine ⟨⟨hti.cap, hti.table, hti.mem, hti.keyInj, hti.freeLt, hti.freeNodup, hti.count,
      hti.load, hti.stuck⟩, ?_, ?_, ?_, ?_, ?_, hlists', hlive', rfl, hcount'⟩
    · rw [hh']; exact hb.pool
    · rw [hh', hb.free]
    · rw [hh']; exact hb.key
    · rw [hh']; simpa using hb.stamp
    · rw [hh']; simp [hb.stamp']
  · rw [hh']

/-- With stamp `0xFFFFFFFF` the next stamp of entry 1 but one is that left in bucket 3. An item
    that moves takes it, in bucket 5. -/
theorem Worn.moved {h : CombiningHold KeyValue} (hw : Worn (-1) h) :
    ∃ h₁ h₂, h.insert minOps ⟨1, 7⟩ 7 = (h₁, ⟨false, -1, 7⟩) ∧ h₁.stuck = false ∧
      h₁.insert minOps ⟨1, 5⟩ 5 = (h₂, ⟨true, 7, 5⟩) ∧
      Pair 1 [] (Function.update (Function.update wornLists 7 [⟨1, 0⟩]) 5 [⟨1, 1⟩])
        (Function.update wornLive 5 1) 2 h₂ ∧
      h₂.buckets 1 = 5 ∧ h₂.payloads 1 = ⟨1, 5⟩ := by
  obtain ⟨h₁, hins₁, hp₁, hkey₁, hbucket₁, hpay₁, -⟩ := Pair.put hw 7 7
  obtain ⟨h₂, hins₂, hp₂, hbucket₂, hpay₂, -⟩ :=
    hp₁.move hkey₁ hbucket₁ hpay₁ 5 (by decide) 5 (by decide)
  refine ⟨h₁, h₂, hins₁, hp₁.table.stuck, hins₂, ?_, hbucket₂, hpay₂⟩
  have hlive : Function.update (Function.update wornLive 7 1) 7 0 = wornLive := by
    rw [Function.update_idem]
    exact Function.update_eq_self 7 wornLive
  rw [← hlive]
  exact hp₂

/-- Both entries are free. -/
structure Spent (h : CombiningHold KeyValue) : Prop where
  table : TableInv h
  pool : h.pool = 2
  free : h.free = [1, 0]
  live : h.live 2 = 0

/-- A release of bucket 3 then takes the item from bucket 5. -/
theorem Worn.early {h : CombiningHold KeyValue} (hw : Worn (-1) h) :
    ∃ h₁ h₂ h₃ x b n n', h.insert minOps ⟨1, 7⟩ 7 = (h₁, ⟨false, -1, 7⟩) ∧ h₁.stuck = false ∧
      h₁.insert minOps ⟨1, 5⟩ 5 = (h₂, ⟨true, 7, 5⟩) ∧ h₂.stuck = false ∧
      (h₂.live 2 = 1 ∧ h₂.live 3 = 0) ∧
      h₂.release 3 4 = (h₃, [⟨x, b, n⟩, ⟨⟨1, 5⟩, 5, n'⟩]) ∧ Spent h₃ := by
  obtain ⟨h₁, h₂, hins₁, hstuck₁, hins₂, hp₂, hbucket₂, hpay₂⟩ := hw.moved
  have hheld : ∀ e < 2, h₂.Held e := fun e he => ⟨by rw [hp₂.pool]; exact he, by
    rw [hp₂.free]; simp⟩
  have hlist : h₂.lists 2 = [⟨0, 1⟩] := by rw [hp₂.lists]; rfl
  obtain ⟨slots, h', hh', hti', hrel'⟩ := releaseBuckets_one hp₂.table hlist hp₂.stamp
    (hheld 0 (by decide))
  -- the reference in bucket 3 names the entry again, which is in bucket 5
  have hlist' : h'.lists 3 = [⟨1, 1⟩] := by rw [hh', hp₂.lists]; rfl
  have hstamp' : h'.stamps 1 = 1 := by
    rw [hh']
    exact hp₂.stamp'
  obtain ⟨slots'', h'', hh'', hti'', hrel''⟩ := releaseBuckets_one hti' hlist' hstamp'
    ⟨by rw [hh']; exact (hheld 1 (by decide)).1, by rw [hh']; simp [hp₂.free]⟩
  have hbuckets : releaseBuckets 2 h₂.lowest 4 h₂ =
      (h'', [⟨h₂.payloads 0, h₂.buckets 0, h₂.heldCount⟩, ⟨⟨1, 5⟩, 5, h'.heldCount⟩]) := by
    have hpay' : h'.payloads 1 = ⟨1, 5⟩ := by rw [hh']; exact hpay₂
    have hbucket' : h'.buckets 1 = 5 := by rw [hh']; exact hbucket₂
    rw [hp₂.lowest]
    show releaseBuckets 2 2 4 h₂ = _
    rw [hrel' 1 3, hrel'' 0 2, hpay', hbucket']
    rfl
  have hzero : h''.live 2 = 0 := by rw [hh'', hh', hp₂.live]; rfl
  have hraise : raiseLowest (h''.bucketCount - h''.lowest) h'' =
      { h'' with lists := Function.update h''.lists 2 [], lowest := 3 } := by
    have hlow : h''.lowest = 2 := by rw [hh'', hh']; exact hp₂.lowest
    have hcount : h''.bucketCount = 8 := by rw [hh'', hh']; exact hp₂.bucketCount
    have hneg : h''.live 3 = -1 := by rw [hh'', hh', hp₂.live]; rfl
    have hstop : h''.live 3 ≠ 0 := by rw [hneg]; decide
    have hsix : h''.bucketCount - h''.lowest = 6 := by rw [hcount, hlow]
    rw [hsix, raiseLowest_step (by omega) (by rw [hlow]; exact hzero),
      raiseLowest_stop (by simpa only [hlow] using hstop), hlow]
  refine ⟨h₁, h₂, _, _, _, _, _, hins₁, hstuck₁, hins₂, hp₂.table.stuck, ?_,
    release_of (n := 2) ?_ hbuckets hti''.stuck, ?_⟩
  · rw [hp₂.live]; exact ⟨rfl, rfl⟩
  · rw [hp₂.bucketCount, hp₂.lowest]; rfl
  · rw [hraise]
    refine ⟨⟨hti''.cap, hti''.table, hti''.mem, hti''.keyInj, hti''.freeLt, hti''.freeNodup,
      hti''.count, hti''.load, hti''.stuck⟩, ?_, ?_, hzero⟩
    · rw [hh'', hh']; exact hp₂.pool
    · rw [hh'', hh', hp₂.free]

/-- The next item takes the second entry again. -/
theorem Spent.put {h : CombiningHold KeyValue} (hs : Spent h) :
    ∃ h', h.insert minOps ⟨2, 2⟩ 2 = (h', ⟨false, -1, 2⟩) ∧ h'.stuck = false ∧
      h'.live 2 = 1 ∧ h'.Held 1 ∧ h'.payloads 1 = ⟨2, 2⟩ ∧ h'.buckets 1 = 2 := by
  obtain ⟨mask, slots, hins, hti⟩ := insert_new hs.table minOps ⟨2, 2⟩
    (by
      rintro e ⟨he, hfree⟩
      rw [hs.pool] at he
      rw [hs.free] at hfree
      simp at hfree
      omega) 2
    (show h.allocEntry = ({ h with free := [0] }, 1) by rw [allocEntry, hs.free])
  rw [hins] at hti
  refine ⟨_, hins, hti.stuck, ?_, ⟨?_, ?_⟩, ?_, ?_⟩
  · simp [hs.live]
  · show 1 < h.pool
    rw [hs.pool]
    decide
  · simp
  · simp
  · simp

/-- When entry 1 is free with the stamp left in bucket 3, a release of that bucket hangs. -/
theorem Worn.hangs {h : CombiningHold KeyValue} (hw : Worn 1 h) :
    ∃ h' x n n', h.release 7 4 = (h', [x, ⟨h.payloads 1, n, n'⟩]) ∧ h'.stuck = true ∧
      h'.heldSet = ∅ ∧ h'.retired = h.retired := by
  have hlist : h.lists 2 = [⟨0, 1⟩] := by rw [hw.lists]; rfl
  obtain ⟨slots, h', hh', hti, hrel⟩ := releaseBuckets_one hw.table hlist hw.stamp
    ⟨by rw [hw.pool]; decide, by rw [hw.free]; decide⟩
  have hlist' : h'.lists 3 = [⟨1, 1⟩] := by rw [hh', hw.lists]; rfl
  have hstamp' : h'.stamps 1 = 1 := by rw [hh']; simpa using hw.stamp'
  have hfree' : h'.free = [0, 1] := by rw [hh', hw.free]
  have hbuckets : releaseBuckets 6 h.lowest 4 h =
      ({ h' with stuck := true }, [⟨h.payloads 0, h.buckets 0, h.heldCount⟩,
        ⟨h.payloads 1, h.buckets 1, h'.heldCount⟩]) := by
    rw [hw.lowest]
    show releaseBuckets 6 2 4 h = _
    rw [hrel 5 3, releaseBuckets_hangs hti hlist' hstamp' (by simp [Held, hfree']) 4 2, hh']
  refine ⟨_, _, _, _, release_of_stuck (n := 6) ?_ hbuckets rfl, rfl, ?_, ?_⟩
  · rw [hw.bucketCount, hw.lowest]; rfl
  · have hpool' : h'.pool = 2 := by rw [hh']; exact hw.pool
    show (Finset.range h'.pool).filter (· ∉ h'.free) = ∅
    rw [hpool', hfree']
    decide
  · show h'.retired = _
    rw [hh']

/-- An item with key 1 enters. -/
theorem Worn.put {s : UInt32} {h : CombiningHold KeyValue} (hw : Worn s h) :
    ∃ h', h.insert minOps ⟨1, 1⟩ 1 = (h', ⟨false, -1, 1⟩) ∧ Busy (s + 1) h' ∧
      h'.retired = h.retired := by
  obtain ⟨h', hins, hp, -, -, hpay, hret⟩ := Pair.put hw 1 1
  exact ⟨h', hins, ⟨hp, hpay⟩, hret⟩

end CombiningHold

end Htram
