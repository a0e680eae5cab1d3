import Cbor.Builder
import Cbor.Command.Directory
import Cbor.Item.Conversion
import Cbor.Json.Settings
import Cbor.Main
import Cbor.Proofs.Alike
import Cbor.Proofs.Budget
import Cbor.Proofs.Building
import Cbor.Proofs.Canonical
import Cbor.Proofs.Classification
import Cbor.Proofs.Codes
import Cbor.Proofs.Creation
import Cbor.Proofs.Faults
import Cbor.Proofs.Folding
import Cbor.Proofs.Identity
import Cbor.Proofs.Integers
import Cbor.Proofs.Interchange
import Cbor.Proofs.Length
import Cbor.Proofs.Narrowing
import Cbor.Proofs.Outcome
import Cbor.Proofs.Press
import Cbor.Proofs.Projection
import Cbor.Proofs.Quoting
import Cbor.Proofs.Sequence
import Cbor.Proofs.Whitespace
