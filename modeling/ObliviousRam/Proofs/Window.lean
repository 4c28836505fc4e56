import ObliviousRam.Window

namespace ObliviousRam.Window

variable {w : Nat}

theorem holds_iff (start len i : Nat) : holds start len i = true ↔ start ≤ i ∧ i < start + len := by
  simp [holds]

theorem source_eq {start len i : Nat} (hle : start ≤ i) (hlt : i < start + len) :
    source start len i = i - start := by
  obtain ⟨k, rfl⟩ := Nat.exists_eq_add_of_le hle
  have hdiv := Nat.div_add_mod start len
  have hmul : start + k + len - start % len = k + len * (start / len + 1) := by
    rw [Nat.mul_succ]
    omega
  rw [source, hmul, Nat.add_mul_mod_self_left, Nat.mod_eq_of_lt (by omega), Nat.add_sub_cancel_left]

theorem getElem_write (start : Nat) (words : List Word) (data : Vector Word w) (i : Nat)
    (hi : i < w) : (write start words data)[i] =
      if start ≤ i ∧ i < start + words.length then words.getD (i - start) 0 else data[i] := by
  rw [write, Vector.getElem_mapFinIdx]
  by_cases h : start ≤ i ∧ i < start + words.length
  · have hlt : i - start < words.length := by omega
    rw [if_pos ((holds_iff _ _ _).2 h), if_pos h, source_eq h.1 h.2]
    simp only [List.getD_eq_getElem?_getD, List.getElem?_eq_getElem hlt, Option.getD_some]
  · rw [if_neg (fun hholds => h ((holds_iff _ _ _).1 hholds)), if_neg h]

theorem toList_write (start : Nat) (words : List Word) (data : Vector Word w)
    (h : start + words.length ≤ w) : (write start words data).toList =
      data.toList.take start ++ words ++ data.toList.drop (start + words.length) := by
  apply List.ext_getElem
  · simp
    omega
  · intro i hi _
    have hi : i < w := by simpa using hi
    rw [Vector.getElem_toList, getElem_write]
    by_cases hlow : i < start
    · rw [if_neg (by omega), List.getElem_append_left (by simp; omega),
        List.getElem_append_left (by simp; omega)]
      simp
    · by_cases hhigh : i < start + words.length
      · have htake : (data.toList.take start).length = start := by simp; omega
        rw [if_pos ⟨by omega, hhigh⟩, List.getElem_append_left (by simp; omega),
          List.getElem_append_right (by omega)]
        have hlt : i - start < words.length := by omega
        simp only [htake, List.getD_eq_getElem?_getD, List.getElem?_eq_getElem hlt,
          Option.getD_some]
      · have htake : (data.toList.take start ++ words).length = start + words.length := by
          simp
          omega
        rw [if_neg (by omega), List.getElem_append_right (by omega), List.getElem_drop]
        simp only [htake, Vector.getElem_toList]
        congr 1
        omega

theorem length_capture (start len : Nat) (buffer : List Word) (entry : Word × Nat) :
    (capture start len buffer entry).length = buffer.length := by
  rw [capture]
  split
  · exact List.length_set
  · rfl

theorem getElem?_foldl_capture (start len k j : Nat) (hj : j < len) (xs buffer : List Word)
    (hlen : buffer.length = len) : ((xs.zipIdx k).foldl (capture start len) buffer)[j]? =
      if k ≤ start + j ∧ start + j < k + xs.length then xs[start + j - k]? else buffer[j]? := by
  induction xs generalizing k buffer with
  | nil => rw [List.zipIdx_nil, List.foldl_nil, if_neg (by simp only [List.length_nil]; omega)]
  | cons x xs ih =>
    have hcapture : (capture start len buffer (x, k)).length = len :=
      (length_capture start len buffer (x, k)).trans hlen
    rw [List.zipIdx_cons, List.foldl_cons, ih (k + 1) _ hcapture, List.length_cons]
    by_cases hk : start + j = k
    · -- Word `k` itself is what entry `j` is waiting for.
      have hsource : source start len k = j := by rw [source_eq (by omega) (by omega)]; omega
      have hholds : holds start len k = true := (holds_iff _ _ _).2 (by omega)
      rw [if_neg (by omega), if_pos (by omega), capture, if_pos hholds, hsource,
        List.getElem?_set_self (by omega), hk, Nat.sub_self, List.getElem?_cons_zero]
    · have hsame : (capture start len buffer (x, k))[j]? = buffer[j]? := by
        rw [capture]
        by_cases hholds : holds start len k = true
        · have hbounds := (holds_iff _ _ _).1 hholds
          rw [if_pos hholds, source_eq hbounds.1 hbounds.2, List.getElem?_set_ne (by omega)]
        · rw [if_neg hholds]
      rw [hsame]
      by_cases hin : k + 1 ≤ start + j ∧ start + j < k + 1 + xs.length
      · have hsucc : start + j - k = start + j - (k + 1) + 1 := by omega
        rw [if_pos hin, if_pos (by omega), hsucc, List.getElem?_cons_succ]
      · rw [if_neg hin, if_neg (by omega)]

theorem length_foldl_capture (start len k : Nat) (xs buffer : List Word) :
    ((xs.zipIdx k).foldl (capture start len) buffer).length = buffer.length := by
  induction xs generalizing k buffer with
  | nil => rfl
  | cons x xs ih => rw [List.zipIdx_cons, List.foldl_cons, ih, length_capture]

theorem read_eq (start len : Nat) (data : Vector Word w) (buffer : List Word)
    (hlen : buffer.length = len) (h : start + len ≤ w) :
    read start len data buffer = (data.toList.drop start).take len := by
  apply List.ext_getElem?
  intro j
  by_cases hj : j < len
  · rw [read, getElem?_foldl_capture _ _ _ _ hj _ _ hlen, if_pos (by simp; omega), Nat.sub_zero,
      List.getElem?_take, if_pos hj, List.getElem?_drop]
  · rw [List.getElem?_eq_none (by rw [read, length_foldl_capture]; omega),
      List.getElem?_take, if_neg hj]

def source? (start len i : Nat) : Option Nat :=
  if 0 < len ∧ start % len ≤ i + len then some (source start len i) else none

/-- What a pass makes of word `i` of a block, and of the buffer if there is one. The buffer and the
words to be written are looked up outside the window too, so their indices are always checked. -/
def visit? (start : Nat) (words : List Word) (i : Nat) (x : Word) (buffer : Option (List Word)) :
    Option (Word × Option (List Word)) := do
  let j ← source? start words.length i
  unless buffer.all fun b => j < b.length do none
  let y ← words[j]?
  return (if holds start words.length i then y else x,
    buffer.map (capture start words.length · (x, i)))

/-- One pass over the words of a block from word `i` on, each of which goes to the buffer before it
is replaced. -/
def pass? (start : Nat) (words : List Word) :
    Nat → List Word → Option (List Word) → Option (List Word × Option (List Word))
  | _, [], buffer => some ([], buffer)
  | i, x :: rest, buffer => do
    let (x, buffer) ← visit? start words i x buffer
    let (rest, buffer) ← pass? start words (i + 1) rest buffer
    return (x :: rest, buffer)

def replaced (start : Nat) (words : List Word) (i : Nat) (x : Word) : Word :=
  if holds start words.length i then words.getD (source start words.length i) x else x

section Pass

variable {start : Nat} {words : List Word} {buffer : Option (List Word)} (hwords : words ≠ [])
include hwords

theorem source_lt (i : Nat) : source start words.length i < words.length :=
  Nat.mod_lt _ (List.length_pos_iff.2 hwords)

theorem source?_eq (i : Nat) :
    source? start words.length i = some (source start words.length i) := by
  have hpos := List.length_pos_iff.2 hwords
  have hmod := Nat.mod_lt start hpos
  exact if_pos ⟨hpos, by omega⟩

theorem visit?_eq (hbuffer : ∀ b ∈ buffer, b.length = words.length) (i : Nat) (x : Word) :
    visit? start words i x buffer =
      some (replaced start words i x, buffer.map (capture start words.length · (x, i))) := by
  have hsource : source start words.length i < words.length := source_lt hwords i
  have hall : buffer.all (fun b => source start words.length i < b.length) = true := by
    rw [Option.all_eq_true]
    intro b hb
    simpa only [decide_eq_true_eq, hbuffer b hb] using hsource
  have hword := List.getElem?_eq_getElem hsource
  simp only [visit?, replaced, source?_eq hwords, Option.bind_eq_bind, Option.bind_some, hall,
    hword, List.getD_eq_getElem?_getD, Option.getD_some]
  rfl

theorem pass?_eq (hbuffer : ∀ b ∈ buffer, b.length = words.length) (k : Nat) (xs : List Word) :
    pass? start words k xs buffer = some ((xs.zipIdx k).map fun e => replaced start words e.2 e.1,
      buffer.map ((xs.zipIdx k).foldl (capture start words.length))) := by
  induction xs generalizing k buffer with
  | nil => simp [pass?]
  | cons x xs ih =>
    have hnext : ∀ b ∈ buffer.map (capture start words.length · (x, k)),
        b.length = words.length := by
      intro b hb
      obtain ⟨a, ha, rfl⟩ := Option.map_eq_some_iff.1 hb
      exact (length_capture _ _ _ _).trans (hbuffer a ha)
    simp only [pass?, visit?_eq hwords hbuffer, ih hnext, Option.bind_eq_bind, Option.bind_some,
      List.zipIdx_cons, List.map_cons, List.foldl_cons, Option.map_map]
    rfl

end Pass

theorem toList_write_eq_map (start : Nat) (words : List Word) (data : Vector Word w) :
    (write start words data).toList =
      data.toList.zipIdx.map fun e => replaced start words e.2 e.1 := by
  apply List.ext_getElem
  · simp
  · intro i hi _
    simp [write, replaced]

/-- One pass over a block, for any window that it holds, takes no index out of range. It replaces the
window and nothing else, and leaves in the buffer what stood there. -/
theorem pass_splices (start : Nat) (words : List Word) (buffer : Option (List Word))
    (data : Vector Word w) (hwords : words ≠ []) (hfit : start + words.length ≤ w)
    (hbuffer : ∀ b ∈ buffer, b.length = words.length) :
    pass? start words 0 data.toList buffer =
        some ((write start words data).toList, buffer.map (read start words.length data)) ∧
      (write start words data).toList =
        data.toList.take start ++ words ++ data.toList.drop (start + words.length) ∧
      ∀ b ∈ buffer, read start words.length data b =
        (data.toList.drop start).take words.length := by
  refine ⟨?_, toList_write start words data hfit, fun b hb => ?_⟩
  · rw [pass?_eq hwords hbuffer, toList_write_eq_map]
    rfl
  · exact read_eq start words.length data b (hbuffer b hb) hfit

theorem pass_splices_five :
    pass? 2 [7, 8] 0 [10, 11, 12, 13, 14] (some [0, 0]) =
      some ([10, 11, 7, 8, 14], some [12, 13]) ∧
    (write 2 [7, 8] #v[10, 11, 12, 13, 14]).toList = [10, 11, 7, 8, 14] ∧
    read 2 2 #v[10, 11, 12, 13, 14] [0, 0] = [12, 13] := by
  obtain ⟨hpass, hwrite, hread⟩ := pass_splices 2 [7, 8] (some [0, 0])
    #v[10, 11, 12, 13, 14] (by decide) (by decide) (by simp)
  have hbuffer := hread [0, 0] rfl
  rw [Option.map_some, hwrite, hbuffer] at hpass
  exact ⟨hpass, hwrite, hbuffer⟩

end ObliviousRam.Window
