import Htram.Common.KeyScan
import Htram.Recv.Sort

/-!
# Finding a PE's items in a sorted message

`HTramRecv::receive_no_sort` hands a message that its sender sorted to every PE of the
node, and `receivePerPE(HTramMessage*)` scans it for the PE's own items.

* `HTramRecv.receiveNoSort_handed`: of a message sorted by PE, each PE is handed its own
  items, in order.
-/

namespace Htram

open RankSort

variable {α : Type*}

namespace HTramMessage

/-- `receivePerPE` (lines 1290–1312) on PE `pe`: what it hands to the client, one by one
    or as an array. -/
def receivePerPE (m : HTramMessage α) (pe : ℕ) : List α :=
  let llimit := KeyScan.lower Item.destPe pe m.received
  let ulimit := KeyScan.upper Item.destPe pe m.received
  ((m.received.drop llimit).take (ulimit - llimit)).map Item.payload

theorem receivePerPE_eq {m : HTramMessage α}
    (hm : m.received.Pairwise fun x y => x.destPe ≤ y.destPe) (pe : ℕ) :
    m.receivePerPE pe = HTramRecv.forPe m.received pe :=
  congrArg (List.map Item.payload) (KeyScan.slice_eq pe hm)

end HTramMessage

namespace HTramRecv

/-- `receive_no_sort` (lines 1277–1288): the message goes to every PE of the node. -/
def receiveNoSort (node : Node) (m : HTramMessage α) : List (ℕ × HTramMessage α) :=
  (List.range' node.first node.size).map fun pe => (pe, m)

/-- What PE `pe` is handed when the message has arrived everywhere. -/
def handedByScan (node : Node) (m : HTramMessage α) (pe : ℕ) : List α :=
  ((receiveNoSort node m).filter fun p => p.1 = pe).flatMap fun p => p.2.receivePerPE pe

theorem handedByScan_eq (node : Node) (m : HTramMessage α) (pe : ℕ) :
    handedByScan node m pe =
      if node.first ≤ pe ∧ pe < node.first + node.size then m.receivePerPE pe else [] := by
  have hnodup : (List.range' node.first node.size).Nodup := List.nodup_range'
  rw [handedByScan, receiveNoSort, List.filter_map]
  simp only [Function.comp_def]
  rw [List.filter_eq, hnodup.count]
  simp only [List.mem_range'_1]
  split_ifs
  · simp
  · rfl

theorem receiveNoSort_handed {node : Node} {m : HTramMessage α}
    (hsorted : m.received.Pairwise fun x y => x.destPe ≤ y.destPe)
    (hown : ∀ x ∈ m.received, node.Owns x.destPe) (pe : ℕ) :
    handedByScan node m pe = forPe m.received pe := by
  rw [handedByScan_eq, m.receivePerPE_eq hsorted]
  split_ifs with h
  · rfl
  · refine (List.map_eq_nil_iff.mpr (List.filter_eq_nil_iff.mpr fun x hx => ?_)).symm
    rw [decide_eq_true_eq]
    rintro rfl
    exact h (hown x hx)

end HTramRecv

end Htram
