import ObliviousRam.Sorting.Network

namespace ObliviousRam

structure Config where
  overflowSize : Nat
  /-- Maps of at most this size are scanned. -/
  scanThreshold : Nat
  network : SortNetwork
  deriving DecidableEq

namespace Config

def defaultOverflowSize : Nat := 40

def defaultScanThreshold : Nat := 16384

def default : Config := ⟨defaultOverflowSize, defaultScanThreshold, .oddEvenMerge⟩

/-- The block width at which an encrypted bucket fills a page of 4096 bytes. -/
def defaultWidth : Nat := 168

end Config

end ObliviousRam
