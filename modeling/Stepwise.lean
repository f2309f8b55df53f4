import Stepwise.Formula.Given
import Stepwise.Descent.SettingsText
import Stepwise.Json.Reader
import Stepwise.Ode.Problem
import Stepwise.Proofs.Descent.Account
import Stepwise.Proofs.Ode.Account
import Stepwise.Proofs.Ode.Grid
import Stepwise.Proofs.Descent.QuasiNewton
import Stepwise.Proofs.Descent.Decrease
import Stepwise.Proofs.Ode.Residual
import Stepwise.Proofs.Ode.Spacing
import Stepwise.Proofs.Ode.Advance
import Stepwise.Proofs.Ode.OneStep
import Stepwise.Proofs.Interruption
import Stepwise.Proofs.Descent.Derivatives
import Stepwise.Proofs.Ode.Resumption
import Stepwise.Proofs.Descent.Caps
import Stepwise.Proofs.Descent.Sizes
import Stepwise.Proofs.Ode.Sizes
import Stepwise.Proofs.Descent.Locality
import Stepwise.Proofs.Ode.Indices
import Stepwise.Proofs.Safety
import Stepwise.Proofs.Descent.Causes
import Stepwise.Proofs.Descent.NewtonQuadratic
import Stepwise.Proofs.Descent.Termination
import Stepwise.Proofs.Ode.Queries
import Stepwise.Proofs.Descent.Contraction
import Stepwise.Proofs.Descent.Enclosure
import Stepwise.Proofs.Descent.Probes
import Stepwise.Proofs.Descent.Planes
import Stepwise.Proofs.Descent.Crossings
import Stepwise.Proofs.Ode.Flaws
import Stepwise.Proofs.Ode.Ordered
import Stepwise.Proofs.Ode.Affine
import Stepwise.Proofs.Ode.Stability
import Stepwise.Proofs.Hessians
import Stepwise.Proofs.Ode.Chronicle
import Stepwise.Proofs.Ode.Unordered
