import Golib.MerkleTree.ConsistencyProofs
import Golib.MerkleTree.ConsistencyComplete
import Golib.MerkleTree.MultiProofs
import Golib.MerkleTree.DecodedRoots
import Golib.MerklePatriciaTrie.RangeProofs
import Golib.MerklePatriciaTrie.SortedBuilders
import Golib.MerklePatriciaTrie.Agreement
import Golib.RateLimit.RationalBuckets
import Golib.RateLimit.Backends
import Golib.RateLimit.Leases
import Golib.Semaphore.Runs
import Golib.CircuitBreaker.HalfOpen
import Golib.ExternalSort.Lossless
import Golib.RuleEngine.PlanCache
import Golib.Temporal.InstantSets
import Golib.Temporal.DailySplits
import Golib.ExternalSort.Nonces
import Golib.Calendar.Timezone
import Golib.RuleEngine.Comparisons
import Golib.Calendar.Business
import Golib.Idempotency.Store
import Golib.MerkleTree.ConsistencyLengths
import Golib.Audit.MerkleRoot
import Golib.Identifier.Generators
import Golib.CircuitBreaker.RollingWindows
