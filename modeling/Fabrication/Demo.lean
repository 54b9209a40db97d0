import Fabrication.Demo.ReactionChain
import Fabrication.Demo.ProfitReport

/-!
# The demonstration programs by name
-/

namespace Fabrication

namespace Demo

def byName? : String → Option (Script Transcript)
  | "reaction_chain" => some reactionChain
  | "profit_report" => some profitReport
  | _ => none

end Demo

end Fabrication
