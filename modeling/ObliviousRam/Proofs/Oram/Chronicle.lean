import ObliviousRam.Proofs.Oram.Access

/- Which draw decides where an access goes. Visits, draws' numbers and touches are listed with the
latest first, as the history of a tree is. -/
namespace ObliviousRam

open LeafSource

/-- An access to a block. Draw number `draw` is the leaf that the block was sent to. -/
structure Visit where
  id : Nat
  draw : Nat
  deriving DecidableEq

namespace Visit

/-- The number of the draw that says where block `id` is: that of the latest visit, and `birth id`
if there was none. -/
def origin (birth : Nat → Nat) : List Visit → Nat → Nat
  | [], id => birth id
  | v :: earlier, id => if v.id = id then v.draw else origin birth earlier id

def origins (birth : Nat → Nat) : List Visit → List Nat
  | [] => []
  | v :: earlier => origin birth earlier v.id :: origins birth earlier

def trail (levels : Nat) (draws : List Word) (birth : Nat → Nat) : List Visit → List Touch
  | [] => []
  | v :: earlier =>
    (Path.ofLeaf levels (2 * draws.getD (origin birth earlier v.id) 0)).touches.reverse ++
      trail levels draws birth earlier

/-- The access to the block that holds entry `v.id`, which makes the next draw. -/
def within (w : Nat) (v : Visit) : Visit := ⟨v.id / w, v.draw + 1⟩

/-- Blocks `id`, `id + 1` and so on are written for the first time. Before each access the words of
the block are drawn, and `stride` draws are made for each block. -/
def written (w stride : Nat) : Nat → Nat → Nat → List Visit
  | 0, _, _ => []
  | count + 1, id, start => written w stride count (id + 1) (start + stride) ++ [⟨id, start + w⟩]

/-- No draw decides where two visits go, nor will any that said where a visit went be used again. -/
structure Spent (size : Nat) (birth : Nat → Nat) (visits : List Visit) (count : Nat) : Prop where
  current_lt : ∀ i < size, origin birth visits i < count
  past_lt : ∀ k ∈ origins birth visits, k < count
  injective : ∀ i < size, ∀ j < size, origin birth visits i = origin birth visits j → i = j
  unused : ∀ i < size, origin birth visits i ∉ origins birth visits
  nodup : (origins birth visits).Nodup

variable {size count : Nat} {birth : Nat → Nat} {visits : List Visit}

theorem origin_cons (id draw i : Nat) : origin birth (⟨id, draw⟩ :: visits) i =
    if id = i then draw else origin birth visits i := rfl

theorem origins_cons (id draw : Nat) : origins birth (⟨id, draw⟩ :: visits) =
    origin birth visits id :: origins birth visits := rfl

theorem Spent.mono (h : Spent size birth visits count) {count' : Nat} (hle : count ≤ count') :
    Spent size birth visits count' :=
  ⟨fun i hi => Nat.lt_of_lt_of_le (h.current_lt i hi) hle,
    fun k hk => Nat.lt_of_lt_of_le (h.past_lt k hk) hle, h.injective, h.unused, h.nodup⟩

theorem Spent.cons (h : Spent size birth visits count) {id draw : Nat} (hid : id < size)
    (hdraw : count ≤ draw) : Spent size birth (⟨id, draw⟩ :: visits) (draw + 1) where
  current_lt := by
    intro i hi
    have := h.current_lt i hi
    rw [origin_cons]
    split <;> omega
  past_lt := by
    intro k hk
    rw [origins_cons, List.mem_cons] at hk
    obtain rfl | hk := hk
    · have := h.current_lt id hid
      omega
    · have := h.past_lt k hk
      omega
  injective := by
    intro i hi j hj heq
    have hilt := h.current_lt i hi
    have hjlt := h.current_lt j hj
    rw [origin_cons, origin_cons] at heq
    by_cases hidi : id = i
    · by_cases hidj : id = j
      · rw [← hidi, hidj]
      · rw [if_pos hidi, if_neg hidj] at heq
        omega
    · by_cases hidj : id = j
      · rw [if_neg hidi, if_pos hidj] at heq
        omega
      · rw [if_neg hidi, if_neg hidj] at heq
        exact h.injective i hi j hj heq
  unused := by
    intro i hi
    have hcurrent := h.current_lt id hid
    rw [origins_cons, List.mem_cons, not_or, origin_cons]
    by_cases hidi : id = i
    · rw [if_pos hidi]
      refine ⟨by omega, fun hmem => ?_⟩
      have := h.past_lt _ hmem
      omega
    · rw [if_neg hidi]
      exact ⟨fun heq => hidi (h.injective id hid i hi heq.symm), h.unused i hi⟩
  nodup := List.nodup_cons.2 ⟨h.unused id hid, h.nodup⟩

theorem trail_append (levels : Nat) (draws more : List Word)
    (hlt : ∀ k ∈ origins birth visits, k < draws.length) :
    trail levels (draws ++ more) birth visits = trail levels draws birth visits := by
  induction visits with
  | nil => rfl
  | cons v earlier ih =>
    have hhead := hlt _ (List.mem_cons_self)
    rw [trail, trail, ih fun k hk => hlt k (List.mem_cons_of_mem _ hk)]
    simp only [List.getD_eq_getElem?_getD, List.getElem?_append_left hhead]

end Visit

open Visit

variable {w : Nat}

/-- The history of a memory since it was born. Entry `i` of its map is the draw that says where
block `i` is, and each visit went where the entry led before it. -/
structure Oram.Chronicle (o : Oram w) (draws : List Word) (birth : Nat → Nat)
    (visits : List Visit) : Prop where
  history : o.layer.tree.history = trail o.layer.tree.levels draws birth visits
  entry : ∀ i < o.positions.size, draws[origin birth visits i]? = some (o.positions.entry i)
  spent : Spent o.positions.size birth visits draws.length

namespace PositionMap

/-- Every entry of a map is the value of a draw below `positions`, and no draw serves two entries.
The bounds of all draws and their values are given in order. -/
structure Drawn (m : PositionMap w) (positions : Word) (bounds values : List Word)
    (slot : Nat → Nat) : Prop where
  injective : ∀ i < m.size, ∀ j < m.size, slot i = slot j → i = j
  bound : ∀ i < m.size, bounds[slot i]? = some positions
  value : ∀ i < m.size, values[slot i]? = some (m.entry i)

/-- Draw number `birth i` is entry `i` of a map as it was created. The creation began after `pre`,
and draw number `start` is the first one after it. -/
inductive Born (w : Nat) (σ : Type) [LeafSource σ] (size : Nat) (positions : Word) :
    List Word → (Nat → Nat) → Nat → Prop
  | intro {config : Config} {m : PositionMap w} {env env' : Env σ} {pre bounds : List Word}
      {slot : Nat → Nat} (more : List Word)
      (create : Creation.run (create config size positions) env = (.ok (.ok m), env'))
      (source : env'.source = (drawAll bounds env.source).2)
      (drawn : m.Drawn positions bounds (drawAll bounds env.source).1 slot) :
      Born w σ size positions (pre ++ (drawAll bounds env.source).1 ++ more)
        (fun i => pre.length + slot i) (pre ++ (drawAll bounds env.source).1).length

variable {σ : Type} [LeafSource σ]

theorem Born.append {size start : Nat} {positions : Word} {draws : List Word} {birth : Nat → Nat}
    (h : Born w σ size positions draws birth start) (more : List Word) :
    Born w σ size positions (draws ++ more) birth start := by
  cases h with
  | intro later create source drawn =>
    rw [List.append_assoc]
    exact .intro (later ++ more) create source drawn

variable (σ)

/-- The same as a chronicle for the memories that a map is packed into. Each block was written when
the map was filled, and accessed whenever an entry in it was. -/
def Chronicled (draws : List Word) : PositionMap w → List Visit → Prop
  | scan _, _ => True
  | packed layer below _ _, asked => ∃ birth start,
    Born w σ layer.capacity layer.tree.leaves draws birth start ∧
    Oram.Chronicle ⟨layer, below⟩ draws birth (asked.map (within w) ++
      written w (w + (Oram.leafCounts ⟨layer, below⟩).length) layer.capacity 0 start) ∧
    below.Chronicled draws (asked.map (within w) ++
      written w (w + (Oram.leafCounts ⟨layer, below⟩).length) layer.capacity 0 start)

end PositionMap

namespace Oram

variable {o o' : Oram w} {draws : List Word} {birth : Nat → Nat} {visits : List Visit}

theorem Chronicle.append (h : o.Chronicle draws birth visits) (more : List Word) :
    o.Chronicle (draws ++ more) birth visits where
  history := by rw [h.history, trail_append _ _ _ h.spent.past_lt]
  entry := by
    intro i hi
    rw [List.getElem?_append_left (h.spent.current_lt i hi)]
    exact h.entry i hi
  spent := h.spent.mono (by simp)

theorem Chronicle.born {slot : Nat → Nat} {draws : List Word} (o : Oram w) (pre : List Word)
    (hhistory : o.layer.tree.history = [])
    (hinjective : ∀ i < o.positions.size, ∀ j < o.positions.size, slot i = slot j → i = j)
    (hvalue : ∀ i < o.positions.size, draws[slot i]? = some (o.positions.entry i)) :
    o.Chronicle (pre ++ draws) (fun i => pre.length + slot i) [] where
  history := hhistory
  entry := by
    intro i hi
    rw [origin, List.getElem?_append_right (Nat.le_add_right _ _), Nat.add_sub_cancel_left,
      hvalue i hi]
  spent := {
    current_lt := by
      intro i hi
      obtain ⟨hlt, -⟩ := List.getElem?_eq_some_iff.1 (hvalue i hi)
      rw [origin, List.length_append]
      omega
    past_lt := fun _ hk => absurd hk List.not_mem_nil
    injective := fun i hi j hj heq => hinjective i hi j hj (Nat.add_left_cancel heq)
    unused := fun _ _ => List.not_mem_nil
    nodup := List.nodup_nil }

theorem Chronicle.visit (h : o.Chronicle draws birth visits) (ho : o.Sound) {id next : Word}
    {rest : List Word} {data : Vector Word w} (hid : id.toNat < o.layer.allocated)
    (ha : o.Accessed id (next :: rest) data o') :
    o'.Chronicle (draws ++ next :: rest) birth (⟨id.toNat, draws.length⟩ :: visits) := by
  have hid' : id.toNat < o.positions.size := by
    rw [ho.size]
    exact Nat.lt_of_lt_of_le hid ho.layer.allocated_le
  cases ha with
  | intro hpositions hlayer =>
    have hentry := h.entry id.toNat hid'
    constructor
    case history =>
      have hold := h.spent.current_lt id.toNat hid'
      rw [hlayer.history, hlayer.levels, trail, trail_append _ _ _ h.spent.past_lt, ← h.history]
      simp only [List.getD_eq_getElem?_getD, List.getElem?_append_left hold, hentry,
        Option.getD_some]
      rfl
    case entry =>
      intro i hi
      rw [hpositions.size_eq] at hi
      rw [origin_cons, hpositions.entry_eq ho.positions hid' hi]
      by_cases hidi : id.toNat = i
      · rw [if_pos hidi, if_pos hidi.symm, List.getElem?_append_right (Nat.le_refl _), Nat.sub_self,
          List.getElem?_cons_zero]
      · rw [if_neg hidi, if_neg (Ne.symm hidi),
          List.getElem?_append_left (h.spent.current_lt i hi), h.entry i hi]
    case spent =>
      rw [hpositions.size_eq]
      exact (h.spent.cons hid' (Nat.le_refl _)).mono (by simp)

end Oram

variable {σ : Type} [LeafSource σ]

theorem PositionMap.Chronicled.append {m : PositionMap w} {draws : List Word} {asked : List Visit}
    (h : m.Chronicled σ draws asked) (more : List Word) : m.Chronicled σ (draws ++ more) asked := by
  induction m generalizing asked with
  | scan => trivial
  | packed layer below first size ih =>
    obtain ⟨birth, start, hborn, hlayer, hbelow⟩ := h
    exact ⟨birth, start, hborn.append more, hlayer.append more, ih hbelow⟩

theorem PositionMap.Chronicled.relocated {m m' : PositionMap w} {draws : List Word} {asked : List Visit}
    (h : m.Chronicled σ draws asked) (hm : m.Sound) {id position : Word} {new : List Word} {draw : Nat}
    (hid : id.toNat < m.size) (hr : m.Relocated id position new m') (hdraw : draws.length = draw + 1) :
    m'.Chronicled σ (draws ++ new) (⟨id.toNat, draw⟩ :: asked) := by
  induction hr generalizing draws draw asked with
  | scan => trivial
  | @packed layer layer' below below' block first id position next size rest hblock hbelow hlayer ih =>
    obtain ⟨birth, start, hborn, htop, hrest⟩ := h
    have hallocated := blockOf_lt hm hid
    obtain ⟨hw, rfl, hcapacity, -, hsize, hlayerSound, hbelowSound⟩ := hm
    subst hblock
    have hblock : (blockOf w 0 id).toNat = id.toNat / w := toNat_blockOf id
    have ho : (⟨layer, below⟩ : Oram w).Sound := ⟨hsize, hlayerSound, hbelowSound⟩
    have hbelowLt : (blockOf w 0 id).toNat < below.size := by
      rw [hsize]
      exact Nat.lt_of_lt_of_le hallocated hlayerSound.allocated_le
    have haccessed : Oram.Accessed ⟨layer, below⟩ (blockOf w 0 id) (next :: rest) _ ⟨layer', below'⟩ :=
      .intro hbelow hlayer
    have hvisit := htop.visit ho hallocated haccessed
    have hlength : (draws ++ [next]).length = draws.length + 1 := List.length_append
    have hstep := ih (hrest.append [next]) hbelowSound hbelowLt hlength
    refine ⟨birth, start, ?_, ?_, ?_⟩
    · have hleaves : layer'.tree.leaves = layer.tree.leaves := (List.cons.inj haccessed.leafCounts_eq).1
      rw [hlayer.capacity, hleaves]
      exact hborn.append _
    · rw [haccessed.leafCounts_eq, hlayer.capacity, List.map_cons, List.cons_append, within, ← hblock,
        ← hdraw]
      exact hvisit
    · rw [haccessed.leafCounts_eq, hlayer.capacity, List.map_cons, List.cons_append, within, ← hblock,
        ← hdraw]
      simpa using hstep

theorem Oram.Accessed.chronicled {o o' : Oram w} {id : Word} {new : List Word} {data : Vector Word w}
    (ha : o.Accessed id new data o') (ho : o.Sound) (hid : id.toNat < o.layer.allocated)
    {draws : List Word} {visits : List Visit} (h : o.positions.Chronicled σ draws visits) :
    o'.positions.Chronicled σ (draws ++ new) (⟨id.toNat, draws.length⟩ :: visits) := by
  have hid' : id.toNat < o.positions.size := by
    rw [ho.size]
    exact Nat.lt_of_lt_of_le hid ho.layer.allocated_le
  cases ha with
  | intro hpositions hlayer =>
    simpa using (h.append [_]).relocated ho.positions hid' hpositions List.length_append

end ObliviousRam
