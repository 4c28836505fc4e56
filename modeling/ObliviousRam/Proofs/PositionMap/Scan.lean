import ObliviousRam.PositionMap.Scan

namespace ObliviousRam

namespace Scan

theorem foldl_select (i k : Nat) (words : List Word) (x : Word) :
    (words.zipIdx k).foldl (select i) x = if k ≤ i then words.getD (i - k) x else x := by
  induction words generalizing k x with
  | nil => split <;> rfl
  | cons y rest ih =>
    rw [List.zipIdx_cons, List.foldl_cons, ih, select]
    -- Word `i` is still to come, or this is the one, or the pass is beyond it and keeps its choice.
    obtain hlt | rfl | hgt := Nat.lt_trichotomy k i
    · have hsub : i - k = i - (k + 1) + 1 := by omega
      rw [if_pos (Nat.succ_le_of_lt hlt), if_neg (Nat.ne_of_lt hlt), if_pos (Nat.le_of_lt hlt), hsub,
        List.getD_cons_succ]
    · rw [if_neg (Nat.not_succ_le_self k), if_pos rfl, if_pos (Nat.le_refl k), Nat.sub_self,
        List.getD_cons_zero]
    · rw [if_neg (by omega), if_neg (by omega), if_neg (by omega)]

theorem pick_eq_getD (i : Nat) (words : List Word) : pick i words = words.getD i 0 := by
  rw [pick, foldl_select, if_pos (Nat.zero_le i), Nat.sub_zero]

theorem trade_zipIdx (i k : Nat) (words : List Word) (held : Word) :
    trade i (words.zipIdx k) held =
      if k ≤ i then (words.set (i - k) held, words.getD (i - k) held) else (words, held) := by
  induction words generalizing k held with
  | nil => split <;> rfl
  | cons y rest ih =>
    rw [List.zipIdx_cons, trade]
    obtain hlt | rfl | hgt := Nat.lt_trichotomy k i
    · have hsub : i - k = i - (k + 1) + 1 := by omega
      simp only [if_neg (Nat.ne_of_lt hlt), ih, if_pos (Nat.succ_le_of_lt hlt)]
      rw [if_pos (Nat.le_of_lt hlt), hsub, List.set_cons_succ, List.getD_cons_succ]
    · simp only [if_pos, ih, if_neg (Nat.not_succ_le_self k)]
      rw [if_pos (Nat.le_refl k), Nat.sub_self, List.set_cons_zero, List.getD_cons_zero]
    · have hle : ¬k + 1 ≤ i := by omega
      simp only [if_neg (Nat.ne_of_gt hgt), ih, if_neg hle, if_neg (Nat.not_le.2 hgt)]

end Scan

namespace ScanMap

variable {m : ScanMap} {id : Word}

theorem get_of_lt (hid : id.toNat < m.size) : m.get id = .ok (m.entries.getD id.toNat 0) := by
  rw [get, if_pos hid, Scan.pick_eq_getD, List.getD_eq_getElem?_getD, Array.getElem?_toList,
    Array.getD_eq_getD_getElem?]

theorem get_of_le (hid : m.size ≤ id.toNat) : m.get id = .error .addressOutOfBounds := by
  rw [get, if_neg (Nat.not_lt.2 hid)]

theorem relocate_of_lt (hid : id.toNat < m.size) (position : Word) : m.relocate id position =
    (.ok (m.entries.getD id.toNat 0), ⟨m.entries.setIfInBounds id.toNat position⟩) := by
  have hentry : m.entries[id.toNat]? = some m.entries[id.toNat] := Array.getElem?_eq_getElem hid
  rw [relocate, if_pos hid, Scan.trade_zipIdx, if_pos (Nat.zero_le _), Nat.sub_zero,
    List.getD_eq_getElem?_getD, Array.getElem?_toList, Array.getD_eq_getD_getElem?, hentry,
    ← Array.toList_setIfInBounds]
  rfl

theorem relocate_of_le (hid : m.size ≤ id.toNat) (position : Word) :
    m.relocate id position = (.error .addressOutOfBounds, m) := by
  rw [relocate, if_neg (Nat.not_lt.2 hid)]

end ScanMap

end ObliviousRam
