import AllocatorBuilder.Block
import AllocatorBuilder.Pool
import AllocatorBuilder.Freelist
import AllocatorBuilder.FreelistBatch
import AllocatorBuilder.FreelistShared
import AllocatorBuilder.FreelistProgress
import AllocatorBuilder.FreelistRefinement
import AllocatorBuilder.FreelistOwnership
import AllocatorBuilder.Stats
import AllocatorBuilder.StatsAccounting
import AllocatorBuilder.StatsToggle
import AllocatorBuilder.StatsAllocations
import AllocatorBuilder.StatsCallers
import AllocatorBuilder.NoAtomic
