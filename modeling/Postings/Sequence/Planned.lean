import Postings.Plan.Optimal
import Postings.Sequence.Partitioned

/-!
# Planned partitions

The partitioned format whose partitions are chosen by the planner.  Each of them
is written in the cheapest of three encodings, and their sizes are stored.
-/

namespace Postings
namespace Partitioned

/-- Partitions chosen by the planner, over a block codec. -/
def planned (codec : Codec) : Format where
  Cursor := Cursor (Adaptive.format codec) EliasFano.format
  write values univ params config := do
    checkMonotone values univ
    let plan ← planPartitions codec values (values.headD 0) univ config
    writePartitions (Adaptive.format codec) EliasFano.format .stored values univ plan.ends
      params config
  openAt := Partitioned.openAt (Adaptive.format codec) EliasFano.format .stored
  shape := shape

end Partitioned
end Postings
