import ObliviousRam.Proofs.Oram.Reachable
import ObliviousRam.Proofs.Recorded

namespace ObliviousRam

open LeafSource

variable {w : Nat} {σ α : Type} [LeafSource σ]

def Command.visits (o : Oram w) (draw : Nat) (command : Command w α) : List Visit :=
  (command.target? o.layer.allocated).toList.map fun id => ⟨id.toNat, draw⟩

namespace Oram

/-- The calls that a memory has seen since it was `o₀`, with the latest visit first. Between two
calls others may draw from the source. -/
inductive Life (o₀ : Oram w) (env₀ : Env (Recorded σ)) :
    Oram w → Env (Recorded σ) → List Visit → Prop
  | created : Life o₀ env₀ o₀ env₀ []
  | called {α : Type} {o o' : Oram w} {env env' : Env (Recorded σ)} {visits : List Visit}
      {command : Command w α} {answer : Answer w α} (life : Life o₀ env₀ o env visits)
      (step : (o.step command).run env = (.ok (answer, o'), env')) :
      Life o₀ env₀ o' env' (command.visits o env.source.draws.length ++ visits)
  | waited {o : Oram w} {env env' : Env (Recorded σ)} {visits : List Visit} {more : List Draw}
      (life : Life o₀ env₀ o env visits)
      (draws : env'.source.draws = env.source.draws ++ more) : Life o₀ env₀ o env' visits

def visits (o : Oram w) : List (Command w α) → Env (Recorded σ) → List Visit
  | [], _ => []
  | command :: rest, env =>
    match (o.step command).run env with
    | (.ok (_, o'), env') => o'.visits rest env' ++ command.visits o env.source.draws.length
    | _ => []

theorem Life.run {o₀ o o' : Oram w} {env₀ env env' : Env (Recorded σ)} {earlier : List Visit}
    (h : Life o₀ env₀ o env earlier) {commands : List (Command w α)} {answers : List (Answer w α)}
    (hrun : (o.run commands).run env = (.ok (answers, o'), env')) :
    Life o₀ env₀ o' env' (o.visits commands env ++ earlier) := by
  -- What was made so far and what is still to come add up to the same visits all along.
  have hkept := run_induction (P := fun rest p env₁ => ∃ before, Life o₀ env₀ p env₁ before ∧
    p.visits rest env₁ ++ before = o.visits commands env ++ earlier) ?_ ⟨earlier, h, rfl⟩ hrun
  · obtain ⟨before, hlife, hvisits⟩ := hkept
    exact hvisits ▸ hlife
  · rintro command rest p answer p' env₁ env₂ ⟨before, hlife, hvisits⟩ hstep
    refine ⟨_, hlife.called hstep, ?_⟩
    rw [visits, hstep] at hvisits
    rw [← hvisits, List.append_assoc]

/-- The record of the draws tells where all visits went, here and in the memories of the map. -/
structure Lived (o : Oram w) (s : Recorded σ) (birth : Nat → Nat) (visits : List Visit) : Prop where
  sound : o.Sound
  chronicle : o.Chronicle s.values birth visits
  chronicled : o.positions.Chronicled (Recorded σ) s.values visits
  leaves : ∀ v ∈ visits, ∃ leaf, s.draws[v.draw]? = some ⟨o.layer.tree.leaves, leaf⟩

variable {o o' : Oram w} {s s' : Recorded σ} {birth : Nat → Nat} {visits : List Visit}

theorem Lived.waited (h : o.Lived s birth visits) {more : List Draw}
    (hdraws : s'.draws = s.draws ++ more) : o.Lived s' birth visits := by
  have hvalues : s'.values = s.values ++ more.map Draw.value := by
    rw [Recorded.values, hdraws, List.map_append, Recorded.values]
  refine ⟨h.sound, ?_, ?_, fun v hv => ?_⟩
  · rw [hvalues]
    exact h.chronicle.append _
  · rw [hvalues]
    exact h.chronicled.append _
  · obtain ⟨leaf, hleaf⟩ := h.leaves v hv
    obtain ⟨hlt, -⟩ := List.getElem?_eq_some_iff.1 hleaf
    exact ⟨leaf, by rw [hdraws, List.getElem?_append_left hlt, hleaf]⟩

theorem Lived.accessed (h : o.Lived s birth visits) (ho' : o'.Sound) {id : Word}
    {data : Vector Word w} (hid : id.toNat < o.layer.allocated)
    (ha : o.Accessed id (drawAll o.leafCounts s).1 data o') :
    o'.Lived (drawAll o.leafCounts s).2 birth (⟨id.toNat, s.draws.length⟩ :: visits) := by
  have hlength : s.draws.length = s.values.length := (List.length_map _).symm
  obtain ⟨next, rest, hdraws⟩ : ∃ next rest, (drawAll o.leafCounts s).1 = next :: rest := ⟨_, _, rfl⟩
  have hleaves : o'.layer.tree.leaves = o.layer.tree.leaves := (List.cons.inj ha.leafCounts_eq).1
  have hwait := h.waited (Recorded.draws_drawAll o.leafCounts s)
  constructor
  case sound => exact ho'
  case chronicle =>
    rw [Recorded.values_drawAll, hlength, hdraws]
    exact h.chronicle.visit h.sound hid (hdraws ▸ ha)
  case chronicled =>
    rw [Recorded.values_drawAll, hlength]
    exact ha.chronicled h.sound hid h.chronicled
  case leaves =>
    intro v hv
    rw [hleaves]
    obtain rfl | hv := List.mem_cons.1 hv
    · refine ⟨next, ?_⟩
      rw [Recorded.draws_drawAll, List.getElem?_append_right (Nat.le_refl _), Nat.sub_self, hdraws]
      rfl
    · exact hwait.leaves v hv

variable [LawfulLeafSource σ]

theorem Lived.called {env env' : Env (Recorded σ)} (h : o.Lived env.source birth visits)
    {command : Command w α} {answer : Answer w α}
    (hrun : (o.step command).run env = (.ok (answer, o'), env')) :
    o'.Lived env'.source birth (command.visits o env.source.draws.length ++ visits) := by
  obtain ⟨ho', hstepped⟩ := h.sound.stepped hrun
  rw [Command.visits]
  generalize command.target? o.layer.allocated = target at hstepped
  cases hstepped with
  | kept hsource =>
    rw [hsource]
    exact h
  | allocated _ hsource =>
    rw [hsource]
    exact ⟨ho', ⟨h.chronicle.history, h.chronicle.entry, h.chronicle.spent⟩, h.chronicled, h.leaves⟩
  | cleared hsource =>
    rw [hsource]
    exact ⟨ho', ⟨h.chronicle.history, h.chronicle.entry, h.chronicle.spent⟩, h.chronicled, h.leaves⟩
  | accessed hid hsource ha =>
    rw [hsource]
    exact h.accessed ho' hid ha

theorem Life.lived {o₀ : Oram w} {env₀ env : Env (Recorded σ)} (h : Life o₀ env₀ o env visits)
    (h₀ : o₀.Lived env₀.source birth []) : o.Lived env.source birth visits := by
  induction h with
  | created => exact h₀
  | called _ hstep ih => exact ih.called hstep
  | waited _ hdraws ih => exact ih.waited hdraws

/-- Each access goes where the latest access to its block was told to go, or where the block was
born, and no draw tells two accesses where to go. The same holds of the memories of the map. -/
theorem exists_birth_of_create {config : Config} {request : Request}
    {env env' : Env (Recorded σ)}
    (h : Creation.run (request.create config) env = (.ok (.ok o), env')) : ∃ birth,
      (∀ i < o.positions.size, env.source.draws.length ≤ birth i ∧
        env'.source.draws[birth i]? = some ⟨o.layer.tree.leaves, o.positions.entry i⟩) ∧
      ∀ o' env₁ visits, Life o env' o' env₁ visits → o'.Lived env₁.source birth visits := by
  obtain ⟨bounds, slot, hsource, hcreated⟩ := exists_of_create h
  have hlength : env.source.values.length = env.source.draws.length := List.length_map _
  refine ⟨fun i => env.source.values.length + slot i, fun i hi => ⟨?_, ?_⟩, ?_⟩
  · rw [hlength]
    exact Nat.le_add_right _ _
  · rw [hsource, Recorded.draws_drawAll, hlength, List.getElem?_append_right (Nat.le_add_right _ _),
      Nat.add_sub_cancel_left, List.getElem?_zipWith, hcreated.drawn.bound i hi,
      hcreated.drawn.value i hi]
  · intro o' env₁ visits hlife
    apply hlife.lived
    rw [hsource]
    refine ⟨hcreated.sound, ?_, ?_, fun _ hv => absurd hv List.not_mem_nil⟩
    · rw [Recorded.values_drawAll]
      exact Chronicle.born o _ hcreated.fresh.history hcreated.drawn.injective hcreated.drawn.value
    · rw [Recorded.values_drawAll]
      exact hcreated.chronicled _

/-- Block 1 is put, the memory is cleared, and blocks 7 and 1 are read; a read that comes too early is
no visit. The first visit to a block goes to the leaf of its entry. The second one to block 1 goes to
the leaf that the first one drew, though the memory was cleared since. -/
theorem exists_birth_packed : ∃ (o o' : Oram 2) (env env' env₁ : Env (Recorded WordStream))
    (birth : Nat → Nat) (visits : List Visit),
    Creation.run (Request.create ⟨0, 2, .bitonic⟩ (.words 16)) env = (.ok (.ok o), env') ∧
    (∀ i < o.positions.size, env.source.draws.length ≤ birth i ∧
      env'.source.draws[birth i]? = some ⟨o.layer.tree.leaves, o.positions.entry i⟩) ∧
    Life o env' o' env₁ visits ∧ o'.Lived env₁.source birth visits ∧
    visits = [⟨1, 30⟩, ⟨7, 27⟩, ⟨1, 24⟩] ∧ Visit.origins birth visits = [24, birth 7, birth 1] ∧
    env₁.source.values[24]? = some 3 ∧ o.positions.entry 7 = 1 ∧ o.positions.entry 1 = 0 ∧
    o'.layer.tree.history = (o'.layer.tree.pathTo 3).touches.reverse ++
      (o'.layer.tree.pathTo 1).touches.reverse ++ (o'.layer.tree.pathTo 0).touches.reverse := by
  have hleads : Request.leads (w := 2) (α := Unit) ⟨0, 2, .bitonic⟩ (.words 16)
      [.allocate 3, .put 1 #v[5, 6], .clear, .get 1, .allocate 8, .get 7, .get 1]
      ⟨(⟨WordStream.ofSeed 2, []⟩ : Recorded WordStream), #[]⟩ (fun o env' o' env₁ =>
        o.visits (α := Unit) [.allocate 3, .put 1 #v[5, 6], .clear, .get 1, .allocate 8, .get 7, .get 1]
          env' == [⟨1, 30⟩, ⟨7, 27⟩, ⟨1, 24⟩] && env₁.source.values[24]? == some 3 &&
        o.positions.entry 7 == 1 && o.positions.entry 1 == 0 &&
        o'.layer.tree.history == (o'.layer.tree.pathTo 3).touches.reverse ++
          (o'.layer.tree.pathTo 1).touches.reverse ++ (o'.layer.tree.pathTo 0).touches.reverse) =
      true := by decide +kernel
  obtain ⟨o, o', env', env₁, answers, hcreate, hrun, hwanted⟩ := exists_of_leads hleads
  simp only [Bool.and_eq_true, beq_iff_eq] at hwanted
  obtain ⟨⟨⟨⟨hvisits, hdraw⟩, hseven⟩, hone⟩, hhistory⟩ := hwanted
  have hlife := Life.created.run hrun
  rw [hvisits] at hlife
  obtain ⟨birth, hbirth, hlived⟩ := exists_birth_of_create hcreate
  exact ⟨o, o', _, env', env₁, birth, _, hcreate, hbirth, hlife, hlived o' env₁ _ hlife, rfl, rfl, hdraw,
    hseven, hone, hhistory⟩

end Oram

end ObliviousRam
