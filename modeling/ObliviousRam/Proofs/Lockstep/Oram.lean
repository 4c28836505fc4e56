import ObliviousRam.Proofs.Lockstep.Layer
import ObliviousRam.Proofs.Oram.Reachable

namespace ObliviousRam

variable {w : Nat} {σ α : Type} {excuse same : Prop} {before before' : List Touch}

inductive PositionMap.Alike : PositionMap w → PositionMap w → Prop
  | scan (map : ScanMap) : Alike (scan map) (scan map)
  | packed {layer layer' : Layer w} {below below' : PositionMap w}
      (hlayer : layer.Alike True [] [] layer') (hbelow : Alike below below') (first : Word)
      (size : Nat) :
      Alike (packed layer below first size) (packed layer' below' first size)

namespace PositionMap.Alike

theorem refl (m : PositionMap w) : m.Alike m := by
  induction m with
  | scan map => exact .scan map
  | packed layer below first size ih => exact .packed (.refl layer) ih first size

variable {m m' : PositionMap w} (h : m.Alike m')
include h

theorem size_eq : m'.size = m.size := by
  cases h <;> rfl

theorem depth_eq : m'.depth = m.depth := by
  induction h with
  | scan => rfl
  | packed hlayer hbelow first size ih => exact congrArg (· + 1) ih

theorem occupancy_eq : m'.occupancy = m.occupancy := by
  cases h with
  | scan => rfl
  | packed hlayer hbelow first size => exact congrArg Statistics.stash hlayer.statistics

theorem relocate [LeafSource σ] (id position : Word) :
    Engine.Follows (σ := σ) excuse (fun x y => x.1 = y.1 ∧ x.2.Alike y.2) (m.relocate id position)
      (m'.relocate id position) := by
  induction h generalizing id position with
  | scan map => exact .pure ⟨rfl, .scan _⟩
  | packed hlayer hbelow first size ih =>
    rw [PositionMap.relocate, PositionMap.relocate]
    split
    · apply (hlayer.access hbelow ih _ _).bind
      rintro ⟨answer, layer, below⟩ ⟨_, layer', below'⟩ ⟨rfl, hlayer, hbelow⟩
      exact .pure ⟨rfl, .packed hlayer hbelow first size⟩
    · exact .pure ⟨rfl, .packed hlayer hbelow first size⟩

end PositionMap.Alike

namespace Oram

structure Alike (same : Prop) (before before' : List Touch) (o o' : Oram w) : Prop where
  layer : o.layer.Alike same before before' o'.layer
  positions : o.positions.Alike o'.positions

namespace Alike

variable {o o' : Oram w} (h : o.Alike same before before' o')
include h

theorem report_eq : o'.report = o.report := by
  rw [report, report, h.layer.statistics, h.positions.occupancy_eq]

theorem clear : Engine.Follows (σ := σ) excuse (Alike same before before') o.clear o'.clear := by
  rw [Oram.clear, Oram.clear, h.layer.capacity]
  apply (Engine.Follows.tell _).bind
  rintro _ _ rfl
  exact .pure ⟨h.layer.clear, h.positions⟩

variable [LeafSource σ]

theorem access (id : Word) (use : Accessor w α) :
    Engine.Follows (σ := σ) excuse (fun x y => x.1 = y.1 ∧ x.2.Alike same before before' y.2)
      (o.access id use) (o'.access id use) := by
  apply (h.layer.access h.positions h.positions.relocate id use).bind
  rintro ⟨answer, layer, positions⟩ ⟨_, layer', positions'⟩ ⟨rfl, hlayer, hpositions⟩
  exact .pure ⟨rfl, hlayer, hpositions⟩

theorem step (command : Command w α) :
    Engine.Follows (σ := σ) excuse (fun x y => x.1 = y.1 ∧ x.2.Alike same before before' y.2)
      (o.step command) (o'.step command) := by
  have hwrap : ∀ {β : Type} (id : Word) (use : Accessor w β) (wrap : Except Refusal β → Answer w α),
      Engine.Follows (σ := σ) excuse (fun x y => x.1 = y.1 ∧ x.2.Alike same before before' y.2)
        (o.access id use >>= fun x => pure (wrap x.1, x.2))
        (o'.access id use >>= fun x => pure (wrap x.1, x.2)) := by
    intro β id use wrap
    apply (h.access id use).bind
    rintro ⟨answer, o⟩ ⟨_, o'⟩ ⟨rfl, h⟩
    exact .pure ⟨rfl, h⟩
  cases command with
  | get id => exact hwrap id _ .block
  | put id data => exact hwrap id _ .stored
  | access id use => exact hwrap id use .used
  | putPartial id start words buffer =>
    rw [Oram.step, Oram.step, putPartial, putPartial]
    cases windowRefusal? w start words.length (buffer.map List.length) with
    | some refusal => exact .pure ⟨rfl, h⟩
    | none => exact hwrap id _ .replaced
  | allocate n =>
    obtain ⟨hfirst, hlayer⟩ := h.layer.allocate n
    exact .pure ⟨congrArg Answer.allocated hfirst.symm, hlayer, h.positions⟩
  | clear =>
    apply h.clear.bind
    intro o o' h
    exact .pure ⟨rfl, h⟩

theorem run (commands : List (Command w α)) :
    Engine.Follows (σ := σ) excuse (fun x y => x.1 = y.1 ∧ x.2.Alike same before before' y.2)
      (o.run commands) (o'.run commands) := by
  induction commands generalizing o o' with
  | nil => exact .pure ⟨rfl, h⟩
  | cons command rest ih =>
    apply (h.step command).bind
    rintro ⟨answer, o⟩ ⟨_, o'⟩ ⟨rfl, h⟩
    apply (ih h).bind
    rintro ⟨answers, o⟩ ⟨_, o'⟩ ⟨rfl, h⟩
    exact .pure ⟨rfl, h⟩

theorem exists_run [LawfulLeafSource σ] (ho : o.Sound) (commands : List (Command w α))
    {env env' : Env σ} (hsource : env.source = env'.source) : ∃ answers p p' env₁ env₁',
      (o.run commands).run env = (.ok (answers, p), env₁) ∧
        (o'.run commands).run env' = (.ok (answers, p'), env₁') ∧
        p.Alike same before before' p' ∧ Env.Alike env.story env'.story env₁ env₁' := by
  obtain ⟨memory, hshows⟩ := ho.exists_shows
  obtain ⟨p, env₁, hrun⟩ := hshows.exists_run commands env
  have hfollows : Engine.Follows (σ := σ) False _ _ _ := h.run commands
  obtain ⟨⟨_, p'⟩, env₁', hrun', ⟨rfl, halike⟩, henv₁⟩ | ⟨⟨⟩, -⟩ := hfollows (.of_source hsource) hrun
  exact ⟨_, p, p', env₁, env₁', hrun, hrun', halike, henv₁⟩

end Alike

end Oram

end ObliviousRam
