import ObliviousRam.Proofs.Relabelling.Layer

namespace ObliviousRam

variable {w : Nat} {σ α β : Type}

def Relabelling.bare (w : Nat) : Relabelling w 0 where
  id := fun id => id
  data := fun _ => #v[]
  id_injective := fun _ _ h => h
  id_empty := rfl
  data_empty := rfl

/-- A memory without the data of its blocks. The map is seen with all it holds. -/
structure View (w : Nat) where
  layer : Layer 0
  positions : PositionMap w

def Oram.view (o : Oram w) : View w := ⟨(Relabelling.bare w).layer o.layer, o.positions⟩

namespace View

variable [LeafSource σ]

/-- What is seen of a call that shows so much of itself, with the numbers of slots that are sorted. -/
def step (view : View w) : Shape → Engine σ (View w × List Nat)
  | .access id => do
    let (_, layer, positions, sizes) ← view.layer.accessSized view.positions
      view.positions.relocateSized id fun data => (.ok (), data)
    return (⟨layer, positions⟩, sizes)
  | .allocate n => return (⟨(view.layer.allocate n).2, view.positions⟩, [])
  | .refused => return (view, [])
  | .clear => do
    Engine.tell (.oramCleared view.layer.capacity)
    return (⟨view.layer.clear, view.positions⟩, [])

def run (view : View w) : List Shape → Engine σ (View w × List (List Nat))
  | [] => return (view, [])
  | shape :: rest => do
    let (view, sizes) ← view.step shape
    let (view, more) ← view.run rest
    return (view, sizes :: more)

end View

namespace Oram

variable [LeafSource σ]

theorem view_accessSized (o : Oram w) (id : Word) (use : Accessor w α) :
    (fun x => (x.2.1.view, x.2.2)) <$> o.accessSized (σ := σ) id use = o.view.step (.access id) := by
  have hmatches : (Relabelling.bare w).Matches (fun _ => ()) (fun _ => ()) use
      fun data => (.ok (), data) := ⟨fun _ => rfl, fun _ => rfl, fun _ => rfl⟩
  have hid : ((Relabelling.bare w).id id).toNat < o.layer.allocated ↔
      id.toNat < o.layer.allocated := Iff.rfl
  have haccess := hmatches.accessSized (σ := σ) o.layer hid o.positions
    (fun positions => positions) (fun next => (id_map (o.positions.relocateSized id next)).symm)
  have hview := congrArg (Functor.map fun x => (View.mk x.2.1 x.2.2.1, x.2.2.2)) haccess
  rw [Functor.map_map, Functor.map_map] at hview
  rw [accessSized, View.step, map_bind]
  simp only [map_pure, bind_pure_comp]
  exact hview.symm

theorem view_allocate (o : Oram w) (n : Nat) :
    (o.allocate n).2.view = ⟨(o.view.layer.allocate n).2, o.view.positions⟩ := by
  have hlayer := congrArg Prod.snd ((Relabelling.bare w).allocate_layer o.layer n)
  exact congrArg (View.mk · o.positions) hlayer.symm

theorem view_clear (o : Oram w) :
    (fun o => (o.view, [])) <$> o.clear (σ := σ) = o.view.step .clear := by
  have hclear : o.view.layer.clear = (Relabelling.bare w).layer o.layer.clear :=
    (Relabelling.bare w).clear_layer o.layer
  rw [clear, View.step, hclear, map_bind]
  rfl

theorem view_stepSized (o : Oram w) (command : Command w α) :
    (fun x => (x.2.1.view, x.2.2)) <$> o.stepSized (σ := σ) command = o.view.step command.shape := by
  have haccess : ∀ id, command.shape = .access id → (fun x => (x.2.1.view, x.2.2)) <$>
      o.stepSized (σ := σ) command = o.view.step command.shape := by
    intro id hshape
    obtain ⟨β, use, wrap, hsized⟩ := command.exists_use (σ := σ) hshape
    rw [hshape, hsized, Functor.map_map, ← view_accessSized o id use]
  cases command with
  | get id | put id | access id => exact haccess id rfl
  | putPartial id start words buffer =>
    cases hwindow : windowRefusal? w start words.length (buffer.map List.length) with
    | some refusal =>
      rw [stepSized, Command.shape, hwindow]
      rfl
    | none =>
      apply haccess id
      rw [Command.shape, hwindow]
  | allocate n =>
    rw [stepSized, map_pure, view_allocate]
    rfl
  | clear =>
    rw [stepSized, map_bind, Command.shape, ← view_clear, ← bind_pure_comp]
    rfl

theorem view_runSized (o : Oram w) (commands : List (Command w α)) :
    (fun x => (x.2.1.view, x.2.2)) <$> o.runSized (σ := σ) commands =
      o.view.run (commands.map Command.shape) := by
  induction commands generalizing o with
  | nil => rfl
  | cons command rest ih =>
    rw [List.map_cons, View.run, ← view_stepSized, bind_map_left, runSized, map_bind]
    apply bind_congr
    rintro ⟨answer, o, sizes⟩
    have hrest := congrArg (· >>= fun x => (pure (x.1, sizes :: x.2) : Engine σ _)) (ih o)
    simp only [bind_map_left] at hrest
    simp only [map_bind, map_pure]
    exact hrest

section Reachable

variable {o₁ o₂ : Oram w}

omit [LeafSource σ] in
theorem observed_of_view (h : o₁.view = o₂.view) :
    o₁.layer.tree.history = o₂.layer.tree.history ∧
      o₁.layer.stash.overflowCount = o₂.layer.stash.overflowCount ∧
      o₁.layer.stash.capacity = o₂.layer.stash.capacity ∧
      o₁.report = o₂.report ∧ o₁.positions = o₂.positions := by
  have hlayer : (Relabelling.bare w).layer o₁.layer = (Relabelling.bare w).layer o₂.layer :=
    congrArg View.layer h
  have hpositions : o₁.positions = o₂.positions := congrArg View.positions h
  have hstatistics : o₁.layer.statistics = o₂.layer.statistics :=
    congrArg (fun layer => layer.statistics) hlayer
  have hstash : (Relabelling.bare w).stash o₁.layer.stash = (Relabelling.bare w).stash o₂.layer.stash :=
    congrArg Layer.stash hlayer
  refine ⟨congrArg (fun layer => layer.tree.history) hlayer, ?_, ?_, ?_, hpositions⟩
  · rw [← (Relabelling.bare w).overflowCount_stash, hstash, Relabelling.overflowCount_stash]
  · rw [← (Relabelling.bare w).capacity_stash, hstash, Relabelling.capacity_stash]
  · rw [report, report, hstatistics, hpositions]

variable [LawfulLeafSource σ]

theorem Sound.exists_runSized {o : Oram w} (h : o.Sound) (commands : List (Command w α))
    (env : Env σ) : ∃ answers o' sizes env',
      (o.run commands).run env = (.ok (answers, o'), env') ∧
        (o.runSized commands).run env = (.ok (answers, o', sizes), env') := by
  obtain ⟨memory, hshows⟩ := h.exists_shows
  obtain ⟨o', env', hrun⟩ := hshows.exists_run commands env
  have herased := hrun
  rw [← runSized_erase] at herased
  obtain ⟨⟨answers, o₁, sizes⟩, hsized, heq⟩ := Engine.exists_of_run_map herased
  cases heq
  exact ⟨_, _, sizes, env', hrun, hsized⟩

/-- Two memories that differ in no more than the data of their blocks can't be told apart by calls for
the same blocks, whatever these do. They make the same draws, read and write the same nodes, sort as
many slots and publish the same, and again differ in no more than the data. -/
theorem views_of_shapes (h₁ : o₁.Reachable σ) (h₂ : o₂.Reachable σ) (hview : o₁.view = o₂.view)
    {commands₁ : List (Command w α)} {commands₂ : List (Command w β)}
    (hshapes : commands₁.map Command.shape = commands₂.map Command.shape) (env : Env σ) :
    ∃ answers₁ answers₂ o₁' o₂' sizes env',
      (o₁.run commands₁).run env = (.ok (answers₁, o₁'), env') ∧
      (o₂.run commands₂).run env = (.ok (answers₂, o₂'), env') ∧
      (o₁.runSized commands₁).run env = (.ok (answers₁, o₁', sizes), env') ∧
      (o₂.runSized commands₂).run env = (.ok (answers₂, o₂', sizes), env') ∧
      o₁'.view = o₂'.view ∧
      o₁'.layer.tree.history = o₂'.layer.tree.history ∧
      o₁'.layer.stash.overflowCount = o₂'.layer.stash.overflowCount ∧
      o₁'.layer.stash.capacity = o₂'.layer.stash.capacity ∧
      o₁'.report = o₂'.report ∧ o₁'.positions = o₂'.positions := by
  obtain ⟨answers₁, o₁', sizes₁, env₁, hrun₁, hsized₁⟩ := h₁.sound.exists_runSized commands₁ env
  obtain ⟨answers₂, o₂', sizes₂, env₂, hrun₂, hsized₂⟩ := h₂.sound.exists_runSized commands₂ env
  have hviews₁ := Engine.run_map_ok hsized₁ fun x => (x.2.1.view, x.2.2)
  have hviews₂ := Engine.run_map_ok hsized₂ fun x => (x.2.1.view, x.2.2)
  rw [view_runSized] at hviews₁ hviews₂
  rw [hview, hshapes, hviews₂] at hviews₁
  simp only [Prod.mk.injEq, Except.ok.injEq] at hviews₁
  obtain ⟨⟨hview', rfl⟩, rfl⟩ := hviews₁
  exact ⟨answers₁, answers₂, o₁', o₂', sizes₂, env₂, hrun₁, hrun₂, hsized₁, hsized₂, hview'.symm,
    observed_of_view hview'.symm⟩

def plainCalls : List (Command 2 Unit) := [.get 1, .put 0 #v[1, 2]]

def otherCalls : List (Command 2 Unit) :=
  [.putPartial 1 1 [9] none, .access 0 fun data => (.error .integerConversion, data.swap 0 1 Nat.zero_lt_two Nat.one_lt_two)]

/-- Block 1 holds other data, and the blocks are used in other ways. -/
theorem views_of_written : ∃ (o₁ o₂ : Oram 2) (env : Env WordStream),
    o₁.Reachable WordStream ∧ o₂.Reachable WordStream ∧ o₁.view = o₂.view ∧
    o₁.layer.contents 1 = #v[5, 6] ∧ o₂.layer.contents 1 = #v[7, 8] ∧
    plainCalls.map Command.shape = otherCalls.map Command.shape ∧
    ∃ answers₁ answers₂ o₁' o₂' sizes env',
      (o₁.run plainCalls).run env = (.ok (answers₁, o₁'), env') ∧
      (o₂.run otherCalls).run env = (.ok (answers₂, o₂'), env') ∧
      (o₁.runSized plainCalls).run env = (.ok (answers₁, o₁', sizes), env') ∧
      (o₂.runSized otherCalls).run env = (.ok (answers₂, o₂', sizes), env') ∧
      o₁'.view = o₂'.view ∧
      o₁'.layer.tree.history = o₂'.layer.tree.history ∧
      o₁'.layer.stash.overflowCount = o₂'.layer.stash.overflowCount ∧
      o₁'.layer.stash.capacity = o₂'.layer.stash.capacity ∧
      o₁'.report = o₂'.report ∧ o₁'.positions = o₂'.positions := by
  have hreaches₁ : Request.reaches (w := 2) (α := Unit) ⟨0, 1, .bitonic⟩ (.words 8)
      [.allocate 2, .put 1 #v[5, 6]] ⟨WordStream.ofSeed 1, #[]⟩
      (fun o => o.layer.contents 1 == #v[5, 6]) = true := by decide +kernel
  have hreaches₂ : Request.reaches (w := 2) (α := Unit) ⟨0, 1, .bitonic⟩ (.words 8)
      [.allocate 2, .put 1 #v[7, 8]] ⟨WordStream.ofSeed 1, #[]⟩
      (fun o => o.layer.contents 1 == #v[7, 8]) = true := by decide +kernel
  obtain ⟨o, o₁, env, env₁, answers₁, hcreate, hrun₁, hwritten₁⟩ := exists_of_reaches hreaches₁
  obtain ⟨o', o₂, env', env₂, answers₂, hcreate', hrun₂, hwritten₂⟩ := exists_of_reaches hreaches₂
  cases hcreate.symm.trans hcreate'
  have hreachable : o.Reachable WordStream := .created hcreate
  have hsame : [Command.allocate (w := 2) (α := Unit) 2, .put 1 #v[5, 6]].map Command.shape =
      [Command.allocate (w := 2) (α := Unit) 2, .put 1 #v[7, 8]].map Command.shape := rfl
  obtain ⟨_, _, _, _, _, _, h₁, h₂, -, -, hview, -⟩ :=
    views_of_shapes hreachable hreachable (Eq.refl o.view) hsame env
  cases hrun₁.symm.trans h₁
  cases hrun₂.symm.trans h₂
  have hreachable₁ := hreachable.run hrun₁
  have hreachable₂ := hreachable.run hrun₂
  have hshapes : plainCalls.map Command.shape = otherCalls.map Command.shape := rfl
  exact ⟨o₁, o₂, env₁, hreachable₁, hreachable₂, hview, beq_iff_eq.1 hwritten₁,
    beq_iff_eq.1 hwritten₂, hshapes, views_of_shapes hreachable₁ hreachable₂ hview hshapes env₁⟩

end Reachable

end Oram

end ObliviousRam
