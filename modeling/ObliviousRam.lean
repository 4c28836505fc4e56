import ObliviousRam.Oram.Creation
import ObliviousRam.Random.Uniform
import ObliviousRam.Proofs.Sorting.Schedule
import ObliviousRam.Proofs.Sorting.Bitonic
import ObliviousRam.Proofs.Sorting.OddEven
import ObliviousRam.Proofs.Sorting.Sorted
import ObliviousRam.Proofs.Tree.Geometry
import ObliviousRam.Proofs.Tree.PathNodes
import ObliviousRam.Proofs.Stash.Filling
import ObliviousRam.Proofs.Stash.Eviction
import ObliviousRam.Proofs.Engine
import ObliviousRam.Proofs.Tree.Contents
import ObliviousRam.Proofs.Layer.Contents
import ObliviousRam.Proofs.Layer.Visit
import ObliviousRam.Proofs.PositionMap.Entries
import ObliviousRam.Proofs.PositionMap.Relocation
import ObliviousRam.Proofs.PositionMap.Delegation
import ObliviousRam.Proofs.Oram.Access
import ObliviousRam.Proofs.Oram.Chronicle
import ObliviousRam.Proofs.PositionMap.Creation
import ObliviousRam.Proofs.Oram.Creation
import ObliviousRam.Proofs.Oram.Memory
import ObliviousRam.Proofs.Oram.Run
import ObliviousRam.Proofs.Oram.Reachable
import ObliviousRam.Proofs.PositionMap.Queries
import ObliviousRam.Proofs.Oram.Life
import ObliviousRam.Proofs.Oram.Sinking
import ObliviousRam.Proofs.Oram.Traffic
import ObliviousRam.Proofs.Oram.Evictions
import ObliviousRam.Proofs.Stash.Sinking
import ObliviousRam.Proofs.Relabelling.Stash
import ObliviousRam.Proofs.Relabelling.Layer
import ObliviousRam.Proofs.Oram.View
import ObliviousRam.Proofs.Oram.Permuting
import ObliviousRam.Proofs.Oram.Refusals
import ObliviousRam.Proofs.Lockstep.Engine
import ObliviousRam.Proofs.Lockstep.Stash
import ObliviousRam.Proofs.Lockstep.Creation
import ObliviousRam.Proofs.Oram.Clearing
import ObliviousRam.Proofs.Oram.Journal
import ObliviousRam.Proofs.Oram.Reset
import ObliviousRam.Proofs.Stash.Refilling
import ObliviousRam.Proofs.Sorting.Paired
import ObliviousRam.Proofs.Tree.Bounds
import ObliviousRam.Proofs.Stash.Arrangement
import ObliviousRam.Proofs.Stash.Placement
import ObliviousRam.Proofs.Stash.Leafmost
import ObliviousRam.Proofs.Stash.Ties
import ObliviousRam.Proofs.PositionMap.Depth
import ObliviousRam.Proofs.Oram.Budget
import ObliviousRam.Proofs.Oram.LoadFactor
import ObliviousRam.Proofs.Oram.Enlargement
import ObliviousRam.Proofs.PositionMap.Bytes
import ObliviousRam.Proofs.Sorting.Oblivious
import ObliviousRam.Proofs.Tree.Retarget
import ObliviousRam.Proofs.Tree.Laminar
import ObliviousRam.Proofs.Oram.Sizing
import ObliviousRam.Proofs.Stash.Capacity
import ObliviousRam.Proofs.Stash.Rows
import ObliviousRam.Proofs.Stash.Resting
import ObliviousRam.Proofs.Stash.Repeating
