import ObliviousRam.Proofs.Oram.Chronicle

namespace ObliviousRam

open LeafSource Visit

variable {w : Nat} {σ : Type} [LeafSource σ]

theorem getElem?_append_stride {α : Type} (l rest : List α) (j k : Nat) :
    (l ++ rest)[(j + 1) * l.length + k]? = rest[j * l.length + k]? := by
  have hsucc : (j + 1) * l.length + k = l.length + (j * l.length + k) := by
    rw [Nat.succ_mul]
    omega
  rw [hsucc, List.getElem?_append_right (Nat.le_add_right _ _), Nat.add_sub_cancel_left]

theorem Engine.run_drawMany (n : Word) (count : Nat) (env : Env σ) :
    (drawMany n count).run env = (.ok (drawAll (List.replicate count n) env.source).1,
      { env with source := (drawAll (List.replicate count n) env.source).2 }) := by
  induction count generalizing env with
  | zero => rfl
  | succ count ih =>
    simp only [drawMany, run_bind, run_draw, ih, run_pure, List.replicate_succ, drawAll]

/-- Blocks `id` up to `id + count` were written with words that were drawn just before. -/
structure Oram.Filled (σ : Type) [LeafSource σ] (o : Oram w) (id count : Nat) (draws : List Word)
    (o' : Oram w) : Prop where
  sound : o'.Sound
  capacity : o'.layer.capacity = o.layer.capacity
  allocated : o'.layer.allocated = o.layer.allocated
  leafCounts : o'.leafCounts = o.leafCounts
  before : ∀ i : Word, i.toNat < id → o'.layer.contents i = o.layer.contents i
  words : ∀ j < count, ∀ k < w, draws[j * (w + o.leafCounts.length) + k]? =
    some ((o'.layer.contents (UInt64.ofNat (id + j))).toList.getD k 0)
  chronicle : ∀ pre birth visits, o.Chronicle pre birth visits → o'.Chronicle (pre ++ draws) birth
    (written w (w + o.leafCounts.length) count id pre.length ++ visits)
  chronicled : ∀ pre visits, o.positions.Chronicled σ pre visits →
    o'.positions.Chronicled σ (pre ++ draws)
      (written w (w + o.leafCounts.length) count id pre.length ++ visits)
  counted : o.layer.Counted → o.positions.Counted → o'.layer.Counted ∧ o'.positions.Counted

namespace Oram

variable {o o₁ o' : Oram w} {id : Word} {count : Nat} {entries leaves draws : List Word}

theorem Accessed.exists_cons {data : Vector Word w} (h : o.Accessed id leaves data o') :
    ∃ next rest, leaves = next :: rest := by
  cases h with
  | intro => exact ⟨_, _, rfl⟩

theorem Filled.cons (ho : o.Sound) (hid : id.toNat < o.layer.allocated) (hentries : entries.length = w)
    (hleaves : leaves.length = o.leafCounts.length)
    (ha : o.Accessed id leaves (Vector.ofFn fun i => entries.getD i 0) o₁)
    (h : o₁.Filled σ (id.toNat + 1) count draws o') :
    o.Filled σ id.toNat (count + 1) (entries ++ leaves ++ draws) o' where
  sound := h.sound
  capacity := by rw [h.capacity, ha.capacity_eq]
  allocated := by rw [h.allocated, ha.allocated_eq]
  leafCounts := by rw [h.leafCounts, ha.leafCounts_eq]
  before := by
    intro i hi
    have hne := ho.layer.ne_allOnes (Nat.lt_trans hi hid)
    have hid' : i ≠ id := by
      rintro rfl
      exact Nat.lt_irrefl _ hi
    rw [h.before i (Nat.lt_succ_of_lt hi), ha.contents_eq ho hne, if_neg hid']
  words := by
    intro j hj k hk
    have hstride : (entries ++ leaves).length = w + o.leafCounts.length := by
      rw [List.length_append, hentries, hleaves]
    cases j with
    | zero =>
      have hcontents : o'.layer.contents id = Vector.ofFn fun i => entries.getD i 0 := by
        rw [h.before id (Nat.lt_succ_self _), ha.contents_eq ho (ho.layer.ne_allOnes hid), if_pos rfl]
      rw [Nat.zero_mul, Nat.zero_add, Nat.add_zero, UInt64.ofNat_toNat, hcontents,
        PositionMap.getD_toList _ k hk, Vector.getElem_ofFn, List.append_assoc,
        List.getElem?_append_left (by omega), List.getD_eq_getElem?_getD,
        List.getElem?_eq_getElem (by omega), Option.getD_some]
    | succ j =>
      have hword := h.words j (Nat.lt_of_succ_lt_succ hj) k hk
      rw [ha.leafCounts_eq] at hword
      rw [← hstride, getElem?_append_stride, hstride, hword, Nat.add_assoc, Nat.add_comm 1 j]
  chronicle := by
    intro pre birth visits hc
    obtain ⟨next, rest, rfl⟩ := ha.exists_cons
    have hlater := h.chronicle _ _ _ ((hc.append entries).visit ho hid ha)
    simp only [ha.leafCounts_eq, List.length_append, hentries, hleaves, List.append_assoc] at hlater
    simpa only [written, List.append_assoc, List.cons_append, List.nil_append,
      Nat.add_assoc]
      using hlater
  chronicled := by
    intro pre visits hc
    have hlater := h.chronicled _ _ (ha.chronicled ho hid (hc.append entries))
    simp only [ha.leafCounts_eq, List.length_append, hentries, hleaves, List.append_assoc] at hlater
    simpa only [written, List.append_assoc, List.cons_append, List.nil_append,
      Nat.add_assoc]
      using hlater
  counted := by
    intro hlayer hpositions
    cases ha with
    | intro hrelocated hvisited =>
      exact h.counted (hvisited.counted hlayer) (hrelocated.counted hpositions)

end Oram

namespace PositionMap

theorem exists_fill [LawfulLeafSource σ] (positions : Word) (count : Nat) (id : Word) (o : Oram w)
    (ho : o.Sound) (hid : id.toNat + count ≤ o.layer.allocated) (env : Env σ) :
    ∃ o' log, (fill positions count id o.layer o.positions).run env =
        (.ok (.ok (o'.layer, o'.positions)), ⟨(drawAll (List.replicate count
          (List.replicate w positions ++ o.leafCounts)).flatten env.source).2, log⟩) ∧
      o.Filled σ id.toNat count (drawAll (List.replicate count
        (List.replicate w positions ++ o.leafCounts)).flatten env.source).1 o' := by
  induction count generalizing id o env with
  | zero =>
    refine ⟨o, env.log, rfl, ?_⟩
    exact ⟨ho, rfl, rfl, rfl, fun _ _ => rfl, fun _ h => absurd h (Nat.not_lt_zero _),
      fun pre _ _ h => (List.append_nil pre).symm ▸ h, fun pre _ h => (List.append_nil pre).symm ▸ h,
      fun hlayer hpositions => ⟨hlayer, hpositions⟩⟩
  | succ count ih =>
    have hsucc : (id + 1).toNat = id.toNat + 1 := by
      have := ho.layer.allocated_le
      have := ho.layer.capacity_lt
      rw [UInt64.toNat_add, UInt64.toNat_one, Nat.mod_eq_of_lt (by omega)]
    obtain ⟨entries, source, hentries⟩ : ∃ entries source,
        drawAll (List.replicate w positions) env.source = (entries, source) := ⟨_, _, rfl⟩
    have hlength : entries.length = w := by
      have := length_drawAll (List.replicate w positions) env.source
      rwa [hentries, List.length_replicate] at this
    have hidlt : id.toNat < o.layer.allocated := by omega
    obtain ⟨layer, below, log, hrun, haccessed⟩ := Layer.exists_access ho.layer ho.size hidlt
      (exists_relocate ho.positions)
      (fun _ => (.ok (), Vector.ofFn fun i : Fin w => entries.getD i 0)) ⟨source, env.log⟩
    have haccessed : o.Accessed id (drawAll o.leafCounts source).1
        (Vector.ofFn fun i : Fin w => entries.getD i 0) ⟨layer, below⟩ := haccessed
    have ho₁ := haccessed.sound ho hidlt (o.forall₂_leafCounts source)
    have hroom : (id + 1).toNat + count ≤ layer.allocated := by
      have hallocated : layer.allocated = o.layer.allocated := haccessed.allocated_eq
      omega
    have hcounts : layer.tree.leaves :: below.leafCounts = o.leafCounts := haccessed.leafCounts_eq
    obtain ⟨o', log', hrest, hfilled⟩ := ih (id + 1) ⟨layer, below⟩ ho₁ hroom
      ⟨(drawAll o.leafCounts source).2, log⟩
    rw [haccessed.leafCounts_eq] at hrest hfilled
    rw [hsucc] at hfilled
    refine ⟨o', log', ?_, ?_⟩
    · rw [fill, Engine.run_bind_ok (Engine.run_drawMany positions w env), hentries,
        Engine.run_bind_ok hrun]
      simp only [List.replicate_succ, List.flatten_cons, drawAll_append, hentries]
      exact hrest
    · have hleaves := length_drawAll o.leafCounts source
      have hcons := Oram.Filled.cons ho hidlt hlength hleaves haccessed hfilled
      simp only [List.replicate_succ, List.flatten_cons, drawAll_append, hentries]
      exact hcons

theorem toNat_zero_add_le (blocks : Nat) : (0 : Word).toNat + blocks ≤ blocks := by
  rw [UInt64.toNat_zero, Nat.zero_add]

theorem filled_of_fill [LawfulLeafSource σ] {positions : Word} {count : Nat} {id : Word}
    {o o' : Oram w} {env env' : Env σ} (ho : o.Sound) (hid : id.toNat + count ≤ o.layer.allocated)
    (h : (fill positions count id o.layer o.positions).run env =
      (.ok (.ok (o'.layer, o'.positions)), env')) :
    env'.source = (drawAll (List.replicate count
        (List.replicate w positions ++ o.leafCounts)).flatten env.source).2 ∧
      o.Filled σ id.toNat count (drawAll (List.replicate count
        (List.replicate w positions ++ o.leafCounts)).flatten env.source).1 o' := by
  obtain ⟨⟨layer, below⟩, log, hrun, hfilled⟩ := exists_fill positions count id o ho hid env
  rw [h] at hrun
  cases o'
  cases hrun
  exact ⟨rfl, hfilled⟩

end PositionMap

end ObliviousRam
