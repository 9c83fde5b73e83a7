import Nexora.Fragment.TimeTravel

/-!
# Consolidating fragments

The consolidator merges small fragments into one, in the namespace `consolidated` and without
statistics (`nexora-fragment/src/consolidator.rs`). A query selects fragments by range, namespace
and statistics and replays them in order, so that each of these may change its answer.
-/

namespace Nexora.Fragment
open Lib List TimeTravelQuery FragmentStore
variable {L V F : Type}

variable (config : ConsolidationConfig)

namespace TimeTravelQuery
variable (cmp : Comparisons V F) (read : L → Option (Entry V)) (q : TimeTravelQuery V F)
  (store : FragmentStore L V) (victims : List FragmentId) (newId : FragmentId)

end TimeTravelQuery

end Nexora.Fragment
