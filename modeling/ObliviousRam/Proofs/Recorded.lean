import ObliviousRam.Proofs.Engine

namespace ObliviousRam

structure Draw where
  bound : Word
  value : Word

structure Recorded (σ : Type) where
  source : σ
  draws : List Draw

namespace Recorded

open LeafSource

variable {σ : Type}

def values (s : Recorded σ) : List Word := s.draws.map Draw.value

variable [LeafSource σ]

instance : LeafSource (Recorded σ) where
  draw n s :=
    let (x, source) := draw n s.source
    (x, ⟨source, s.draws ++ [⟨n, x⟩]⟩)

instance [LawfulLeafSource σ] : LawfulLeafSource (Recorded σ) where
  draw_lt n s hn := LawfulLeafSource.draw_lt n s.source hn

theorem draws_drawAll (bounds : List Word) (s : Recorded σ) :
    (drawAll bounds s).2.draws = s.draws ++ List.zipWith Draw.mk bounds (drawAll bounds s).1 := by
  induction bounds generalizing s with
  | nil => exact (List.append_nil _).symm
  | cons n bounds ih =>
    have hhead : (draw n s).2.draws = s.draws ++ [⟨n, (draw n s).1⟩] := rfl
    rw [drawAll]
    simp only [ih, hhead, List.zipWith_cons_cons, List.append_assoc, List.singleton_append]

theorem values_drawAll (bounds : List Word) (s : Recorded σ) :
    (drawAll bounds s).2.values = s.values ++ (drawAll bounds s).1 := by
  induction bounds generalizing s with
  | nil => exact (List.append_nil _).symm
  | cons n bounds ih =>
    have hhead : (draw n s).2.values = s.values ++ [(draw n s).1] := List.map_append
    rw [drawAll]
    simp only [ih, hhead, List.append_assoc, List.singleton_append]

end Recorded

end ObliviousRam
