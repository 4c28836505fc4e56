import ObliviousRam.Word

namespace ObliviousRam

class LeafSource (σ : Type) where
  draw : Word → σ → Word × σ

class LawfulLeafSource (σ : Type) [LeafSource σ] : Prop where
  draw_lt : ∀ (n : Word) (s : σ), 0 < n → (LeafSource.draw n s).1 < n

end ObliviousRam
