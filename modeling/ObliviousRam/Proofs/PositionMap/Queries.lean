import ObliviousRam.Proofs.PositionMap.Creation
import ObliviousRam.Proofs.Recorded
import ObliviousRam.Random.Uniform

namespace ObliviousRam.PositionMap

open LeafSource

variable {w n : Nat} {σ : Type}

inductive Query where
  | get (id : Word)
  | relocate (id position : Word)

def Query.id : Query → Word
  | get id => id
  | relocate id _ => id

section

variable [LeafSource σ]

def ask (m : PositionMap w) : Query → Engine σ (Except Refusal Word × PositionMap w)
  | .get id => m.get id
  | .relocate id position => m.relocate id position

def askAll (m : PositionMap w) : List Query → Engine σ (List (Except Refusal Word) × PositionMap w)
  | [] => return ([], m)
  | query :: rest => do
    let (answer, m) ← m.ask query
    let (answers, m) ← m.askAll rest
    return (answer :: answers, m)

end

namespace Query

def answer (entries : Vector Word n) : Query → Except Refusal Word × Vector Word n
  | get id =>
    if h : id.toNat < n then (.ok entries[id.toNat], entries)
    else (.error .addressOutOfBounds, entries)
  | relocate id position =>
    if h : id.toNat < n then (.ok entries[id.toNat], entries.set id.toNat position)
    else (.error .addressOutOfBounds, entries)

def answers (entries : Vector Word n) : List Query → List (Except Refusal Word)
  | [] => []
  | query :: rest => (query.answer entries).1 :: answers (query.answer entries).2 rest

end Query

/-- Whatever is drawn, all queries are answered as the array answers them. One that is out of bounds
leaves the map and the source as they are. -/
def ActsAs (m : PositionMap w) (entries : Vector Word n) : Prop :=
  ∀ (σ : Type) [LeafSource σ] [LawfulLeafSource σ] (queries : List Query) (env : Env σ), ∃ m' env',
    (m.askAll queries).run env = (.ok (Query.answers entries queries, m'), env') ∧
    ∀ (query : Query) (env₁ : Env σ), n ≤ query.id.toNat →
      (m'.ask query).run env₁ = (.ok (.error .addressOutOfBounds, m'), env₁)

structure Holds (m : PositionMap w) (entries : Vector Word n) : Prop where
  sound : m.Sound
  size_eq : m.size = n
  entry_eq : ∀ i (hi : i < n), m.entry i = entries[i]

theorem ask_of_le [LeafSource σ] (m : PositionMap w) (query : Query) (env : Env σ)
    (hid : m.size ≤ query.id.toNat) :
    (m.ask query).run env = (.ok (.error .addressOutOfBounds, m), env) := by
  cases query with
  | get id => exact m.get_of_le id env hid
  | relocate id position => exact m.relocate_of_le id position env hid

namespace Holds

variable {m m' : PositionMap w} {entries : Vector Word n}

theorem relocated (h : m.Holds entries) {id position : Word} (hid : id.toNat < n)
    {draws : List Word} (hdraws : List.Forall₂ (· < ·) draws m.leafCounts)
    (hr : m.Relocated id position draws m') : m'.Holds (entries.set id.toNat position) where
  sound := hr.sound h.sound (h.size_eq ▸ hid) hdraws
  size_eq := by rw [hr.size_eq, h.size_eq]
  entry_eq := by
    intro i hi
    rw [hr.entry_eq h.sound (h.size_eq ▸ hid) (h.size_eq ▸ hi), Vector.getElem_set, h.entry_eq i hi]
    by_cases heq : i = id.toNat
    · rw [if_pos heq, if_pos heq.symm]
    · rw [if_neg heq, if_neg (Ne.symm heq)]

variable [LeafSource σ] [LawfulLeafSource σ]

theorem exists_ask (h : m.Holds entries) (query : Query) (env : Env σ) : ∃ m' env',
    (m.ask query).run env = (.ok ((query.answer entries).1, m'), env') ∧
      m'.Holds (query.answer entries).2 := by
  by_cases hid : query.id.toNat < n
  · have hdraws := forall₂_drawAll m.leafCounts m.leafCounts_pos env.source
    cases query with
    | get id =>
      have hid : id.toNat < n := hid
      obtain ⟨m', log, hrun, hr⟩ := PositionMap.exists_get h.sound id env (h.size_eq ▸ hid)
      have hholds := h.relocated hid hdraws hr
      rw [h.entry_eq _ hid] at hrun hholds
      rw [Vector.set_getElem_self] at hholds
      rw [Query.answer, dif_pos hid]
      exact ⟨m', _, hrun, hholds⟩
    | relocate id position =>
      have hid : id.toNat < n := hid
      obtain ⟨m', log, hrun, hr⟩ := PositionMap.exists_relocate h.sound id position env
        (h.size_eq ▸ hid)
      rw [h.entry_eq _ hid] at hrun
      rw [Query.answer, dif_pos hid]
      exact ⟨m', _, hrun, h.relocated hid hdraws hr⟩
  · have hanswer : query.answer entries = (.error .addressOutOfBounds, entries) := by
      cases query with
      | get id => exact dif_neg hid
      | relocate id position => exact dif_neg hid
    rw [hanswer]
    exact ⟨m, env, m.ask_of_le query env (h.size_eq ▸ Nat.not_lt.1 hid), h⟩

theorem exists_askAll (h : m.Holds entries) (queries : List Query) (env : Env σ) : ∃ m' env',
    (m.askAll queries).run env = (.ok (Query.answers entries queries, m'), env') ∧ m'.size = n := by
  induction queries generalizing m entries env with
  | nil => exact ⟨m, env, rfl, h.size_eq⟩
  | cons query rest ih =>
    obtain ⟨m₁, env₁, hask, hholds⟩ := h.exists_ask query env
    obtain ⟨m', env', hrest, hsize⟩ := ih hholds env₁
    refine ⟨m', env', ?_, hsize⟩
    rw [askAll, Engine.run_bind_ok hask, Engine.run_bind_ok hrest]
    rfl

end Holds

theorem Holds.actsAs {m : PositionMap w} {entries : Vector Word n} (h : m.Holds entries) :
    m.ActsAs entries := by
  intro σ _ _ queries env
  obtain ⟨m', env', hrun, hsize⟩ := h.exists_askAll queries env
  refine ⟨m', env', hrun, fun query env₁ hid => ?_⟩
  exact m'.ask_of_le query env₁ (hsize ▸ hid)

theorem holds_scan (entries : Vector Word n) : (scan ⟨entries.toArray⟩ : PositionMap w).Holds entries where
  sound := trivial
  size_eq := entries.size_toArray
  entry_eq := by
    intro i hi
    rw [entry, Array.getD_eq_getD_getElem?, Array.getElem?_eq_getElem (by simpa using hi),
      Option.getD_some, Vector.getElem_toArray]

/-- A map that is created is an array of draws, each entry a draw of its own. Nobody who asks can
tell it from a map with these entries that is scanned. -/
theorem exists_array_of_create [LeafSource σ] [LawfulLeafSource σ] {config : Config} {size : Nat}
    {positions : Word} {m : PositionMap w} {env env' : Env (Recorded σ)}
    (h : Creation.run (create config size positions) env = (.ok (.ok m), env')) :
    ∃ (entries : Vector Word size) (made : List Draw) (slot : Fin size → Nat),
      env'.source.draws = env.source.draws ++ made ∧ Function.Injective slot ∧
      (∀ i, made[slot i]? = some ⟨positions, entries[i]⟩) ∧
      m.ActsAs entries ∧ (scan ⟨entries.toArray⟩ : PositionMap w).ActsAs entries := by
  obtain ⟨hsound, hsize, -, bounds, slot, hsource, hdrawn, -⟩ := exists_of_create h
  obtain ⟨entries, hentries⟩ : ∃ entries : Vector Word size,
      entries = Vector.ofFn fun i : Fin size => m.entry i := ⟨_, rfl⟩
  have hentry : ∀ i (hi : i < size), m.entry i = entries[i] := by
    intro i hi
    rw [hentries, Vector.getElem_ofFn]
  refine ⟨entries, List.zipWith Draw.mk bounds (drawAll bounds env.source).1, fun i => slot i, ?_, ?_,
    ?_, Holds.actsAs ⟨hsound, hsize, hentry⟩, (holds_scan entries).actsAs⟩
  · rw [hsource, Recorded.draws_drawAll]
  · intro i j heq
    exact Fin.ext (hdrawn.injective i (hsize ▸ i.isLt) j (hsize ▸ j.isLt) heq)
  · intro i
    have hvalue := hdrawn.value i (hsize ▸ i.isLt)
    rw [hentry i i.isLt] at hvalue
    rw [List.getElem?_zipWith, hdrawn.bound i (hsize ▸ i.isLt), hvalue]
    rfl

theorem exists_array_five : ∃ (m : PositionMap 2) (env env' : Env (Recorded WordStream)),
    Creation.run (create ⟨0, 1, .bitonic⟩ 5 8) env = (.ok (.ok m), env') ∧
    ∃ (entries : Vector Word 5) (made : List Draw) (slot : Fin 5 → Nat),
      env'.source.draws = env.source.draws ++ made ∧ Function.Injective slot ∧
      (∀ i, made[slot i]? = some ⟨8, entries[i]⟩) ∧
      m.ActsAs entries ∧ (scan ⟨entries.toArray⟩ : PositionMap 2).ActsAs entries := by
  have hsucceeds : Creation.succeeds (create (w := 2) ⟨0, 1, .bitonic⟩ 5 8)
      ⟨(⟨WordStream.ofSeed 1, []⟩ : Recorded WordStream), #[]⟩ = true := by decide +kernel
  obtain ⟨m, env', h⟩ := Creation.exists_of_succeeds hsucceeds
  exact ⟨m, _, env', h, exists_array_of_create h⟩

end ObliviousRam.PositionMap
