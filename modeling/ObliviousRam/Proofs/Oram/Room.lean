import ObliviousRam.Proofs.Lockstep.Creation

namespace ObliviousRam

variable {w : Nat} {σ α : Type}

theorem Slots.pick_append_replicate (id : Word) (bs : List (Block w)) (n : Nat) :
    pick id (bs ++ List.replicate n Block.empty) = pick id bs := by
  rw [pick, pick, List.find?_append, List.find?_replicate]
  cases bs.find? fun b => b.id == id with
  | some b => rfl
  | none =>
    rw [Option.none_or]
    split
    · rfl
    · split <;> rfl

theorem Slots.Padded.pick_eq {as bs : List (Block w)} (h : Padded as bs) (id : Word)
    (cs : List (Block w)) : pick id (cs ++ bs) = pick id (cs ++ as) := by
  obtain ⟨core, m, n, rfl, rfl⟩ := h
  rw [← List.append_assoc, ← List.append_assoc, pick_append_replicate, pick_append_replicate]

theorem Layer.Alike.exists_overflow {layer layer' : Layer w} (h : layer.Alike True [] [] layer') :
    ∃ overflow, Slots.Padded layer.stash.overflow overflow ∧
      layer' = { layer with stash := { layer.stash with overflow } } := by
  obtain ⟨since, overflow, hhistory, hpadded, heq⟩ := h.exists_eq
  rw [h.path trivial, ← hhistory] at heq
  exact ⟨overflow, hpadded, heq⟩

theorem PositionMap.Alike.entry_eq {m m' : PositionMap w} (h : m.Alike m') : m'.entry = m.entry := by
  cases h with
  | scan map => rfl
  | packed hlayer hbelow first size =>
    obtain ⟨overflow, hpadded, rfl⟩ := hlayer.exists_overflow
    funext i
    rw [entry, entry, Layer.contents, Layer.contents, Layer.slots, Layer.slots]
    rw [hpadded.pick_eq]

/-- The same memory, but for the number of empty slots at the end of its overflow region. How its map
is kept may differ, but not what it says. -/
structure Oram.Resized (o o' : Oram w) : Prop where
  layer : o'.layer =
    { o.layer with stash := { o.layer.stash with overflow := o'.layer.stash.overflow } }
  overflow : Slots.Padded o.layer.stash.overflow o'.layer.stash.overflow
  size : o'.positions.size = o.positions.size
  entry : o'.positions.entry = o.positions.entry
  report : o'.report = o.report

theorem Oram.Alike.resized {o o' : Oram w} (h : o.Alike True [] [] o') : o.Resized o' := by
  obtain ⟨overflow, hpadded, hlayer⟩ := h.layer.exists_overflow
  refine ⟨?_, ?_, h.positions.size_eq, h.positions.entry_eq, h.report_eq⟩
  · rw [hlayer]
  · rw [hlayer]
    exact hpadded

theorem PositionMap.Alike.memories {m m' : PositionMap w} (h : m.Alike m') :
    List.Forall₂ Oram.Resized m.memories m'.memories := by
  induction h with
  | scan => exact .nil
  | packed hlayer hbelow first size ih => exact .cons (Oram.Alike.resized ⟨hlayer, hbelow⟩) ih

namespace Oram

variable [LeafSource σ] [LawfulLeafSource σ]

/-- Two memories that are created alike, but with more or less room in their stashes, answer the same
to all calls. After these they differ, in each layer, in no more than the number of empty slots at the
end of the overflow region, and no other events were told than those of its growth. -/
theorem resized_of_create {config : Config} {words : Nat} {o : Oram w} {env env₁ : Env σ}
    (h : Creation.run (create config words) env = (.ok (.ok o), env₁)) (overflowSize : Nat) :
    let create' := Creation.run (create (w := w) { config with overflowSize } words) env
    (Bucket.capacity * 63 + overflowSize < 2 ^ 64 → ∃ o' env₁', create' = (.ok (.ok o'), env₁')) ∧
    ∀ o' env₁', create' = (.ok (.ok o'), env₁') →
      Env.Alike env.story env.story env₁ env₁' ∧
      List.Forall₂ Resized (o :: o.positions.memories) (o' :: o'.positions.memories) ∧
      ∀ (commands : List (Command w α)) (env₂ env₂' : Env σ), env₂.source = env₂'.source →
        ∃ answers p p' env₃ env₃',
          (o.run commands).run env₂ = (.ok (answers, p), env₃) ∧
          (o'.run commands).run env₂' = (.ok (answers, p'), env₃') ∧
          Env.Alike env₂.story env₂'.story env₃ env₃' ∧
          List.Forall₂ Resized (p :: p.positions.memories) (p' :: p'.positions.memories) := by
  have hrequest : Creation.run ((Request.words words).create config) env = (.ok (.ok o), env₁) := h
  have hsound : o.Sound := (Reachable.created hrequest).sound
  intro create'
  obtain ⟨_, env₁', hcreate', hagree, henv₁⟩ | ⟨hexcuse, fault, env₁', hcreate'⟩ :=
    Alike.create (fun hfull : 2 ^ 64 ≤ Bucket.capacity * 63 + overflowSize => hfull) words
      (.of_source (Eq.refl env.source)) h
  · cases hagree with
    | ok halike =>
      refine ⟨fun _ => ⟨_, env₁', hcreate'⟩, ?_⟩
      rintro o' env₂' h'
      cases hcreate'.symm.trans h'
      refine ⟨henv₁, .cons halike.resized halike.positions.memories, ?_⟩
      intro commands env₂ env₂' hsource
      obtain ⟨answers, p, p', env₃, env₃', hrun, hrun', hp, henv₃⟩ :=
        halike.exists_run hsound commands hsource
      exact ⟨answers, p, p', env₃, env₃', hrun, hrun', henv₃,
        .cons hp.resized hp.positions.memories⟩
  · refine ⟨fun hlt => absurd hexcuse (Nat.not_le.2 hlt), fun o' env₂' h' => ?_⟩
    cases hcreate'.symm.trans h'

theorem resized_grown : ∃ (o o' p p' : Oram 2) (env env₁ env₁' env₂ env₂' : Env WordStream)
    (answers : List (Answer 2 Unit)),
    Creation.run (create ⟨0, 1, .bitonic⟩ 8) env = (.ok (.ok o), env₁) ∧
    Creation.run (create ⟨2, 1, .bitonic⟩ 8) env = (.ok (.ok o'), env₁') ∧
    (o.run [.allocate 2, .put 1 #v[5, 6], .get 1]).run env₁ = (.ok (answers, p), env₂) ∧
    (o'.run [.allocate 2, .put 1 #v[5, 6], .get 1]).run env₁' = (.ok (answers, p'), env₂') ∧
    p.layer.stash.capacity = 20 ∧ p'.layer.stash.capacity = 2 ∧
    List.Forall₂ Resized (p :: p.positions.memories) (p' :: p'.positions.memories) := by
  have hreaches : Request.reaches (w := 2) (α := Unit) ⟨0, 1, .bitonic⟩ (.words 8)
      [.allocate 2, .put 1 #v[5, 6], .get 1] ⟨WordStream.ofSeed 1, #[]⟩
      (fun p => p.layer.stash.capacity == 20) = true := by decide +kernel
  have hreaches' : Request.reaches (w := 2) (α := Unit) ⟨2, 1, .bitonic⟩ (.words 8)
      [.allocate 2, .put 1 #v[5, 6], .get 1] ⟨WordStream.ofSeed 1, #[]⟩
      (fun p => p.layer.stash.capacity == 2) = true := by decide +kernel
  obtain ⟨o, p, env₁, env₂, answers, hcreate, hrun, hgrown⟩ := exists_of_reaches hreaches
  obtain ⟨o', p', env₁', env₂', answers', hcreate', hrun', hkept⟩ := exists_of_reaches hreaches'
  obtain ⟨-, hcreated⟩ := resized_of_create (α := Unit) hcreate 2
  obtain ⟨henv₁, -, hruns⟩ := hcreated o' env₁' hcreate'
  obtain ⟨_, _, _, _, _, h, h', -, hresized⟩ :=
    hruns [.allocate 2, .put 1 #v[5, 6], .get 1] env₁ env₁' henv₁.source
  cases hrun.symm.trans h
  cases hrun'.symm.trans h'
  exact ⟨o, o', p, p', _, env₁, env₁', env₂, env₂', answers, hcreate, hcreate', hrun, hrun',
    beq_iff_eq.1 hgrown, beq_iff_eq.1 hkept, hresized⟩

end Oram

end ObliviousRam
