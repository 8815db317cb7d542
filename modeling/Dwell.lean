import Dwell.Machine.Description
import Dwell.Main
import Dwell.Proofs.Machine.Calling
import Dwell.Proofs.Simulation.Ending
import Dwell.Proofs.Simulation.Ordering
import Dwell.Proofs.Simulation.Trace
import Dwell.Scenario.Writing
import Dwell.Proofs.Machine.Dependence
import Dwell.Proofs.Registry.Order
import Dwell.Proofs.Machine.Holding
import Dwell.Proofs.Machine.Obligation
import Dwell.Proofs.Machine.Binding
import Dwell.Proofs.Machine.Timing
import Dwell.Proofs.Simulation.Repeating
import Dwell.Proofs.Simulation.Origin
import Dwell.Proofs.Rule.Form
import Dwell.Proofs.Machine.Configuring
import Dwell.Proofs.Machine.Deciding
import Dwell.Proofs.Simulation.Waking
import Dwell.Proofs.Machine.Altering
import Dwell.Proofs.Machine.Rounding
import Dwell.Proofs.Simulation.Readable
import Dwell.Proofs.Simulation.Failing
import Dwell.Proofs.Machine.Admitting
import Dwell.Proofs.Machine.Rendering
import Dwell.Proofs.Machine.Ripening
import Dwell.Proofs.Rule.Locating
import Dwell.Proofs.Machine.Durations
import Dwell.Proofs.Simulation.Colliding
import Dwell.Proofs.Instant.Saturating
import Dwell.Proofs.Scenario.Layering
import Dwell.Proofs.Scenario.Saving
