import ObliviousRam.Proofs.PositionMap.Filling

namespace ObliviousRam

open LeafSource

variable {w : Nat} {σ : Type} [LeafSource σ]

theorem LeafSource.drawAll_lt [LawfulLeafSource σ] {ns : List Word} {s : σ} {k : Nat} {n x : Word}
    (hn : ns[k]? = some n) (hx : (drawAll ns s).1[k]? = some x) (hpos : 0 < n) : x < n := by
  induction ns generalizing s k with
  | nil => cases hn
  | cons m ns ih =>
    cases k with
    | zero =>
      cases hn
      cases hx
      exact LawfulLeafSource.draw_lt _ s hpos
    | succ k => exact ih hn hx

theorem ScanMap.of_create {size : Nat} {positions : Word} {map : ScanMap} {env env' : Env σ}
    (h : Creation.run (create size positions) env = (.ok (.ok map), env')) :
    map = ⟨(drawAll (List.replicate size positions) env.source).1.toArray⟩ ∧
      env'.source = (drawAll (List.replicate size positions) env.source).2 := by
  by_cases hzero : positions = 0
  · rw [create, if_pos hzero] at h
    cases h
  · rw [create, if_neg hzero] at h
    obtain ⟨entries, env₁, hdraw, h⟩ := Creation.exists_of_run_bind h
    have hdraw := Creation.exists_of_run_lift hdraw
    rw [Engine.run_drawMany] at hdraw
    cases hdraw
    cases h
    exact ⟨rfl, rfl⟩

namespace PositionMap

theorem le_two_pow_levels {blocks : Nat} {t : BucketTree w}
    (h : BucketTree.create (levelsFor blocks) = .ok t) : blocks ≤ 2 ^ t.levels := by
  rw [(BucketTree.of_create h).1, ← ceilLog2_le_iff, levelsFor]
  exact Nat.le_max_right _ _

theorem drawn_scan (size : Nat) (positions : Word) (s : σ) :
    Drawn (w := w) (scan ⟨(drawAll (List.replicate size positions) s).1.toArray⟩) positions
      (List.replicate size positions) (drawAll (List.replicate size positions) s).1 id := by
  have hlength := length_drawAll (List.replicate size positions) s
  rw [List.length_replicate] at hlength
  refine ⟨fun i _ j _ h => h, fun i hi => ?_, fun i hi => ?_⟩
  · have hi : i < (drawAll (List.replicate size positions) s).1.length := hi
    rw [id, List.getElem?_replicate, if_pos (hlength ▸ hi)]
  · have hi : i < (drawAll (List.replicate size positions) s).1.length := hi
    rw [id, entry, Array.getD_eq_getD_getElem?, List.getElem?_toArray,
      List.getElem?_eq_getElem hi, Option.getD_some]

theorem getElem?_flatten_replicate {α : Type} (l : List α) (count j k : Nat) (hj : j < count)
    (hk : k < l.length) : (List.replicate count l).flatten[j * l.length + k]? = l[k]? := by
  induction count generalizing j with
  | zero => cases hj
  | succ count ih =>
    rw [List.replicate_succ, List.flatten_cons]
    cases j with
    | zero => rw [Nat.zero_mul, Nat.zero_add, List.getElem?_append_left hk]
    | succ j => rw [getElem?_append_stride, ih j (Nat.lt_of_succ_lt_succ hj)]

/-- Entry `i` of a packed map is drawn right before block `i / w` is written. -/
theorem drawn_packed {o o' : Oram w} {positions : Word} {size : Nat} {before values draws : List Word}
    (hw : 0 < w) (hbefore : values.length = before.length)
    (h : o.Filled σ 0 (ceilDiv size w) draws o') :
    (packed o'.layer o'.positions 0 size).Drawn positions
      (before ++ (List.replicate (ceilDiv size w)
        (List.replicate w positions ++ o.leafCounts)).flatten) (values ++ draws)
      fun i => before.length + (i / w * (w + o.leafCounts.length) + i % w) where
  injective := by
    intro i _ j _ heq
    have hdiv : ∀ i, (i / w * (w + o.leafCounts.length) + i % w) / (w + o.leafCounts.length) =
        i / w := by
      intro i
      have := Nat.mod_lt i hw
      rw [Nat.add_comm, Nat.add_mul_div_right _ _ (by omega), Nat.div_eq_of_lt (by omega),
        Nat.zero_add]
    have hblocks := Nat.add_left_cancel heq
    have hquot := congrArg (· / (w + o.leafCounts.length)) hblocks
    simp only [hdiv] at hquot
    rw [hquot] at hblocks
    rw [← Nat.div_add_mod i w, ← Nat.div_add_mod j w, hquot, Nat.add_left_cancel hblocks]
  bound := by
    intro i hi
    have hi : i < size := hi
    have hmod := Nat.mod_lt i hw
    have hflat := getElem?_flatten_replicate (List.replicate w positions ++ o.leafCounts)
      (ceilDiv size w) (i / w) (i % w) (div_lt_ceilDiv hw hi) (by simp; omega)
    rw [List.length_append, List.length_replicate] at hflat
    rw [List.getElem?_append_right (Nat.le_add_right _ _), Nat.add_sub_cancel_left, hflat,
      List.getElem?_append_left (by simpa using hmod), List.getElem?_replicate, if_pos hmod]
  value := by
    intro i hi
    have hi : i < size := hi
    have hword := h.words (i / w) (div_lt_ceilDiv hw hi) (i % w) (Nat.mod_lt i hw)
    rw [← hbefore, List.getElem?_append_right (Nat.le_add_right _ _), Nat.add_sub_cancel_left, hword,
      entry, UInt64.zero_add, Nat.zero_add]

/-- What the creation of a map goes through if it succeeds: the map is scanned, or it is packed into
a fresh layer whose own map is created first. -/
theorem create_cases {config : Config} {size : Nat} {positions : Word} {m : PositionMap w}
    {env env' : Env σ}
    (h : Creation.run (create config size positions) env = (.ok (.ok m), env')) :
    0 < positions ∧
    ((size ≤ config.scanThreshold ∧
        m = scan ⟨(drawAll (List.replicate size positions) env.source).1.toArray⟩ ∧
        env'.source = (drawAll (List.replicate size positions) env.source).2) ∨
      2 ≤ w ∧ config.scanThreshold < size ∧ 0 < config.scanThreshold ∧
      ∃ (tree : BucketTree w) (below : PositionMap w) (layer : Layer w) (filled : Oram w)
        (env₁ env₂ env₃ : Env σ),
        BucketTree.create (levelsFor (ceilDiv size w)) = .ok tree ∧ env₁.source = env.source ∧
        Creation.run (create config (ceilDiv size w) tree.leaves) env₁ = (.ok (.ok below), env₂) ∧
        (Layer.assemble config tree (ceilDiv size w) below.depth).run env₂ = (.ok layer, env₃) ∧
        (fill positions (ceilDiv size w) 0 { layer with allocated := ceilDiv size w } below).run env₃ =
          (.ok (.ok (filled.layer, filled.positions)), env') ∧
        m = packed filled.layer filled.positions 0 size) := by
  rw [create] at h
  by_cases hzero : positions = 0 ∨ w = 0
  · rw [if_pos hzero] at h
    cases h
  rw [if_neg hzero] at h
  rw [not_or] at hzero
  have hpositions : 0 < positions := by
    rw [UInt64.lt_iff_toNat_lt]
    exact Nat.pos_of_ne_zero fun h => hzero.1 (UInt64.toNat_inj.1 h)
  refine ⟨hpositions, ?_⟩
  by_cases hscan : size ≤ config.scanThreshold
  · rw [if_pos hscan] at h
    obtain ⟨_, env₁, htell, h⟩ := Creation.exists_of_run_bind h
    obtain ⟨map, env₂, hmap, h⟩ := Creation.exists_of_run_bind h
    obtain ⟨rfl, hsource⟩ := ScanMap.of_create hmap
    cases htell
    cases h
    exact .inl ⟨hscan, rfl, hsource⟩
  rw [if_neg hscan] at h
  by_cases hw : w < 2
  · rw [if_pos hw] at h
    cases h
  rw [if_neg hw] at h
  obtain ⟨_, env₁, htell, h⟩ := Creation.exists_of_run_bind h
  cases htell
  by_cases hthreshold : config.scanThreshold = 0
  · rw [if_pos hthreshold] at h
    cases h
  rw [if_neg hthreshold] at h
  obtain ⟨tree, env₂, htree, h⟩ := Creation.exists_of_run_bind h
  obtain ⟨hcreate, rfl⟩ := Creation.exists_of_run_except htree
  obtain ⟨below, env₃, hbelow, h⟩ := Creation.exists_of_run_bind h
  obtain ⟨layer, env₄, hlayer, h⟩ := Creation.exists_of_run_bind h
  have hassemble := Creation.exists_of_run_lift hlayer
  rw [(Layer.fresh_of_assemble hcreate hassemble).1.allocate_all] at h
  obtain ⟨⟨layer', below'⟩, env₅, hfill, h⟩ := Creation.exists_of_run_bind h
  cases h
  exact .inr ⟨by omega, by omega, by omega, tree, below, layer, ⟨layer', below'⟩,
    { env with log := env.log.push (.packedMapCreated size w) }, env₃, env₄, hcreate, rfl, hbelow,
    hassemble, hfill, rfl⟩

section

variable {o o' : Oram w} {size : Nat} {draws : List Word} (hcapacity : o.layer.capacity = ceilDiv size w)
  (h : o.Filled σ 0 (ceilDiv size w) draws o')
include hcapacity h

theorem sound_packed (hw : 2 ≤ w) (hallocated : o.layer.allocated = ceilDiv size w) :
    (packed o'.layer o'.positions 0 size).Sound :=
  ⟨hw, rfl, by rw [h.capacity, hcapacity], by rw [h.allocated, h.capacity, hallocated, hcapacity],
    h.sound.size, h.sound.layer, h.sound.positions⟩

theorem chronicled_packed {config : Config} {leaves : Word} {bounds : List Word} {slot : Nat → Nat}
    {env₁ env₂ : Env σ} (hleaves : o.layer.tree.leaves = leaves) (hhistory : o.layer.tree.history = [])
    (hcreate : Creation.run (create config (ceilDiv size w) leaves) env₁ =
      (.ok (.ok o.positions), env₂))
    (hsource : env₂.source = (drawAll bounds env₁.source).2)
    (hdrawn : o.positions.Drawn leaves bounds (drawAll bounds env₁.source).1 slot)
    (hbelow : ∀ pre, o.positions.Chronicled σ (pre ++ (drawAll bounds env₁.source).1) [])
    (pre : List Word) :
    (packed o'.layer o'.positions 0 size).Chronicled σ
      (pre ++ ((drawAll bounds env₁.source).1 ++ draws)) [] := by
  have hlife := Oram.Chronicle.born o pre hhistory hdrawn.injective hdrawn.value
  refine ⟨fun i => pre.length + slot i, (pre ++ (drawAll bounds env₁.source).1).length, ?_, ?_, ?_⟩
  · rw [h.capacity, hcapacity, (List.cons.inj h.leafCounts).1, hleaves, ← List.append_assoc]
    exact .intro draws hcreate hsource hdrawn
  · rw [h.capacity, hcapacity, List.map_nil, List.nil_append, ← List.append_assoc, h.leafCounts]
    have hlayer := h.chronicle _ _ _ hlife
    rwa [List.append_nil] at hlayer
  · rw [h.capacity, hcapacity, List.map_nil, List.nil_append, ← List.append_assoc, h.leafCounts]
    have hpositions := h.chronicled _ _ (hbelow pre)
    rwa [List.append_nil] at hpositions

end

theorem sound_assembled [LawfulLeafSource σ] {config : Config} {tree : BucketTree w} {layer : Layer w}
    {below : PositionMap w} {levels blocks : Nat} {bounds : List Word} {slot : Nat → Nat} {s : σ}
    {env env' : Env σ} (hcreate : BucketTree.create levels = .ok tree)
    (hassemble : (Layer.assemble config tree blocks below.depth).run env = (.ok layer, env'))
    (hblocks : blocks < 2 ^ 64) (hsound : below.Sound) (hsize : below.size = blocks)
    (hdrawn : below.Drawn tree.leaves bounds (drawAll bounds s).1 slot) :
    layer.tree.leaves = tree.leaves ∧ (⟨layer, below⟩ : Oram w).Sound := by
  obtain ⟨hfresh, -⟩ := Layer.fresh_of_assemble hcreate hassemble
  have hleaves : layer.tree.leaves = tree.leaves := by
    rw [BucketTree.leaves, BucketTree.leaves, hfresh.levels, (BucketTree.of_create hcreate).1]
  have hentry : ∀ i < blocks, below.entry i < layer.tree.leaves := by
    intro i hi
    rw [hleaves]
    exact drawAll_lt (hdrawn.bound i (hsize ▸ hi)) (hdrawn.value i (hsize ▸ hi)) tree.leaves_pos
  exact ⟨hleaves, by rw [hsize, hfresh.capacity], hfresh.sound hblocks hentry, hsound⟩

theorem sound_handed_out [LawfulLeafSource σ] {config : Config} {size : Nat} {tree : BucketTree w}
    {layer : Layer w} {below : PositionMap w} {bounds : List Word} {slot : Nat → Nat} {s : σ}
    {env env' : Env σ} (hcreate : BucketTree.create (levelsFor (ceilDiv size w)) = .ok tree)
    (hassemble : (Layer.assemble config tree (ceilDiv size w) below.depth).run env = (.ok layer, env'))
    (hsound : below.Sound) (hsize : below.size = ceilDiv size w)
    (hdrawn : below.Drawn tree.leaves bounds (drawAll bounds s).1 slot) :
    layer.tree.leaves = tree.leaves ∧
      (⟨{ layer with allocated := ceilDiv size w }, below⟩ : Oram w).Sound := by
  obtain ⟨hfresh, -⟩ := Layer.fresh_of_assemble hcreate hassemble
  have hblocks : ceilDiv size w < 2 ^ 64 := by
    have := le_two_pow_levels hcreate
    have := tree.two_pow_levels_le
    omega
  obtain ⟨hleaves, hosound⟩ := sound_assembled hcreate hassemble hblocks hsound hsize hdrawn
  have hallocated := hosound.allocate (n := ceilDiv size w)
    (by rw [hfresh.allocated, hfresh.capacity, Nat.zero_add])
  rw [hfresh.allocated, Nat.zero_add] at hallocated
  exact ⟨hleaves, hallocated⟩

/-- A created map has the entries that were drawn for it, however deep it is. -/
theorem exists_of_create [LawfulLeafSource σ] {config : Config} {size : Nat} {positions : Word}
    {m : PositionMap w} {env env' : Env σ}
    (h : Creation.run (create config size positions) env = (.ok (.ok m), env')) :
    m.Sound ∧ m.size = size ∧ m.Counted ∧ ∃ bounds slot,
      env'.source = (drawAll bounds env.source).2 ∧
      m.Drawn positions bounds (drawAll bounds env.source).1 slot ∧
      ∀ pre, m.Chronicled σ (pre ++ (drawAll bounds env.source).1) [] := by
  induction size using Nat.strongRecOn generalizing positions m env env' with
  | ind size ih =>
    obtain ⟨-, ⟨-, rfl, hsource⟩ | ⟨hw, hlarge, hthreshold, tree, below, layer, filled, env₁, env₂, env₃,
      hcreate, hsource, hbelow, hassemble, hfill, rfl⟩⟩ := create_cases h
    · have hlength := length_drawAll (List.replicate size positions) env.source
      rw [List.length_replicate] at hlength
      exact ⟨trivial, hlength, fun _ h => absurd h List.not_mem_nil, List.replicate size positions, id,
        hsource, drawn_scan size positions env.source, fun _ => trivial⟩
    · obtain ⟨hsound, hsize, hcounted, bounds, slot, hbounds, hdrawn, hchronicled⟩ :=
        ih _ (ceilDiv_lt (by omega) hw) hbelow
      rw [← hsource]
      obtain ⟨hfresh, hsame⟩ := Layer.fresh_of_assemble hcreate hassemble
      obtain ⟨hleaves, hosound⟩ := sound_handed_out hcreate hassemble hsound hsize hdrawn
      obtain ⟨hrest, hfilled⟩ := filled_of_fill hosound (toNat_zero_add_le _) hfill
      rw [hsame, hbounds, UInt64.toNat_zero] at hfilled
      obtain ⟨counts, hcounts⟩ : ∃ counts, counts = Oram.leafCounts ⟨layer, below⟩ := ⟨_, rfl⟩
      refine ⟨sound_packed hfresh.capacity hfilled hw rfl, rfl,
        counted_packed.2 (hfilled.counted (hfresh.counted _) hcounted),
        bounds ++ (List.replicate (ceilDiv size w) (List.replicate w positions ++ counts)).flatten,
        fun i => bounds.length + (i / w * (w + counts.length) + i % w), ?_, ?_, fun pre => ?_⟩
      all_goals subst hcounts
      · rw [hrest, drawAll_append, hsame, hbounds]
        rfl
      · have hpacked : (packed filled.layer filled.positions 0 size).Drawn positions (bounds ++ _) _ _ :=
          drawn_packed (by omega) (length_drawAll bounds env₁.source) hfilled
        rw [drawAll_append]
        exact hpacked
      · rw [drawAll_append]
        exact chronicled_packed hfresh.capacity hfilled hleaves hfresh.history hbelow hbounds hdrawn
          hchronicled pre

end PositionMap

end ObliviousRam
