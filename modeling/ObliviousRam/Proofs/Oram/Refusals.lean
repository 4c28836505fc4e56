import ObliviousRam.Proofs.Oram.Reachable

namespace ObliviousRam.Oram

variable {w : Nat} {σ α β : Type}

def rangeRefusal? (w start : Nat) (words : List Word) : Option Refusal :=
  if words = [] ∨ w < start + words.length then some (.partialWriteRange start words.length w)
  else none

def lengthRefusal? (words : List Word) (buffer : Option (List Word)) : Option Refusal :=
  buffer.bind fun old =>
    if old.length = words.length then none else some (.bufferLength words.length old.length)

def blockRefusal? (o : Oram w) (id : Word) : Option Refusal :=
  if id.toNat < o.layer.allocated then none else some .unallocatedBlock

/-- A call that has to pass checks ends with an answer of its own, or else with the first refusal.
In the latter case the memory, the source and the log are as before, and there are no words in the
answer that a buffer of the caller could take. -/
def Decides (o : Oram w) (env : Env σ) (refusal? : Option Refusal) (own : Except Refusal β)
    (call : Engine σ (Except Refusal β × Oram w)) : Prop :=
  match refusal? with
  | some refusal => call.run env = (.ok (.error refusal, o), env)
  | none => ∃ o' env', call.run env = (.ok (own, o'), env')

theorem windowRefusal?_eq (w start : Nat) (words : List Word) (buffer : Option (List Word)) :
    windowRefusal? w start words.length (buffer.map List.length) =
      (rangeRefusal? w start words).or (lengthRefusal? words buffer) := by
  unfold windowRefusal? rangeRefusal?
  by_cases hrange : words = [] ∨ w < start + words.length
  · rw [if_pos hrange, if_pos (by simpa only [List.length_eq_zero_iff] using hrange), Option.some_or]
  · rw [if_neg hrange, if_neg (by simpa only [List.length_eq_zero_iff] using hrange), Option.none_or]
    cases buffer <;> rfl

theorem read_of_windowRefusal? {start : Nat} {words : List Word} {buffer : Option (List Word)}
    (h : windowRefusal? w start words.length (buffer.map List.length) = none) (data : Vector Word w) :
    buffer.map (Window.read start words.length data) =
      buffer.map fun _ => (data.toList.drop start).take words.length := by
  unfold windowRefusal? at h
  split at h
  next => cases h
  next hrange =>
    cases buffer with
    | none => rfl
    | some old =>
      rw [Option.map_some, Option.map_some]
      by_cases hlength : old.length = words.length
      · rw [Window.read_eq start words.length data old hlength (by omega)]
      · simp only [Option.map_some, if_neg hlength] at h
        cases h

variable [LeafSource σ] [LawfulLeafSource σ] {o : Oram w}

theorem Sound.decides_access (h : o.Sound) (id : Word) (use : Accessor w α) (env : Env σ) :
    o.Decides env (o.blockRefusal? id) (use (o.layer.contents id)).1 (o.access id use) := by
  rw [blockRefusal?]
  by_cases hid : id.toNat < o.layer.allocated
  · obtain ⟨o', log, hrun, -⟩ := exists_access h hid use env
    rw [if_pos hid]
    exact ⟨o', _, hrun⟩
  · rw [if_neg hid]
    exact access_of_le o id use env (Nat.not_lt.1 hid)

theorem Sound.decides_putPartial (h : o.Sound) (id : Word) (start : Nat) (words : List Word)
    (buffer : Option (List Word)) (env : Env σ) :
    o.Decides env
      ((rangeRefusal? w start words).or ((lengthRefusal? words buffer).or (o.blockRefusal? id)))
      (.ok (buffer.map fun _ => ((o.layer.contents id).toList.drop start).take words.length))
      (o.putPartial id start words buffer) := by
  rw [← Option.or_assoc, ← windowRefusal?_eq, putPartial]
  cases hwindow : windowRefusal? w start words.length (buffer.map List.length) with
  | some refusal => rfl
  | none =>
    rw [Option.none_or, ← read_of_windowRefusal? hwindow]
    exact h.decides_access id _ env

/-- In a memory and in those of its map, a call is turned down by the first check that it does not
pass. If it passes them, then its own accessor alone tells how it ends. -/
theorem decides_of_reachable (h : o.Reachable σ) (env : Env σ) : ∀ p ∈ o :: o.positions.memories,
    ∀ id : Word,
      p.Decides env (p.blockRefusal? id) (.ok (p.layer.contents id)) (p.get id) ∧
      (∀ data, p.Decides env (p.blockRefusal? id) (.ok ()) (p.put id data)) ∧
      (∀ use : Accessor w α,
        p.Decides env (p.blockRefusal? id) (use (p.layer.contents id)).1 (p.access id use)) ∧
      ∀ start words buffer, p.Decides env
        ((rangeRefusal? w start words).or ((lengthRefusal? words buffer).or (p.blockRefusal? id)))
        (.ok (buffer.map fun _ => ((p.layer.contents id).toList.drop start).take words.length))
        (p.putPartial id start words buffer) := by
  intro p hp id
  have hsound : p.Sound := by
    obtain rfl | hp := List.mem_cons.1 hp
    · exact h.sound
    · exact h.sound.positions.memories p hp
  exact ⟨hsound.decides_access id (fun data => (.ok data, data)) env,
    fun data => hsound.decides_access id (fun _ => (.ok (), data)) env,
    fun use => hsound.decides_access id use env,
    fun start words buffer => hsound.decides_putPartial id start words buffer env⟩

/-- The window is looked at before the buffer, and the buffer before the block. -/
theorem decides_packed : ∃ (o : Oram 2) (env : Env WordStream), o.Reachable WordStream ∧
    o.depth = 3 ∧ o.layer.allocated = 2 ∧ o.layer.contents 1 = #v[5, 6] ∧
    (o.putPartial 2 1 [7, 8] (some [])).run env =
      (.ok (.error (.partialWriteRange 1 2 2), o), env) ∧
    (o.putPartial 2 1 [7] (some [])).run env = (.ok (.error (.bufferLength 1 0), o), env) ∧
    (o.putPartial 2 1 [7] (some [0])).run env = (.ok (.error .unallocatedBlock, o), env) ∧
    ∃ o' env', (o.putPartial 1 1 [7] (some [0])).run env = (.ok (.ok (some [6]), o'), env') := by
  have hreaches : Request.reaches (w := 2) (α := Unit) ⟨0, 1, .bitonic⟩ (.words 8)
      [.allocate 2, .put 1 #v[5, 6]] ⟨WordStream.ofSeed 1, #[]⟩ (fun o => o.depth == 3 &&
        o.layer.allocated == 2 && o.layer.contents 1 == #v[5, 6]) = true := by decide +kernel
  obtain ⟨o₀, o, env₀, env, answers, hcreate, hrun, hwanted⟩ := exists_of_reaches hreaches
  simp only [Bool.and_eq_true, beq_iff_eq] at hwanted
  obtain ⟨⟨hdepth, hallocated⟩, hcontents⟩ := hwanted
  have hreachable : o.Reachable WordStream := (Reachable.created hcreate).run hrun
  have hdecides := fun id => decides_of_reachable (α := Unit) hreachable env o List.mem_cons_self id
  have hblocked : o.blockRefusal? 2 = some .unallocatedBlock := by
    rw [blockRefusal?, hallocated]
    rfl
  have hfree : o.blockRefusal? 1 = none := by
    rw [blockRefusal?, hallocated]
    rfl
  obtain ⟨-, -, -, hblockedPut⟩ := hdecides 2
  obtain ⟨-, -, -, hfreePut⟩ := hdecides 1
  rw [hblocked] at hblockedPut
  rw [hfree, hcontents] at hfreePut
  exact ⟨o, env, hreachable, hdepth, hallocated, hcontents, hblockedPut 1 [7, 8] (some []),
    hblockedPut 1 [7] (some []), hblockedPut 1 [7] (some [0]), hfreePut 1 [7] (some [0])⟩

end ObliviousRam.Oram
