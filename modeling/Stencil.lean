import Stencil.Main
import Stencil.Source.Table
import Stencil.Proofs.Condition
import Stencil.Proofs.Folding
import Stencil.Proofs.History
import Stencil.Proofs.Invalidation
import Stencil.Proofs.Nesting
import Stencil.Proofs.Snapshot
import Stencil.Proofs.Staleness
import Stencil.Proofs.StartTag
import Stencil.Proofs.Wording
import Stencil.Proofs.Ambiguity
import Stencil.Proofs.Compilation
import Stencil.Proofs.Slot
import Stencil.Proofs.Closing
import Stencil.Proofs.Sharing
import Stencil.Proofs.ImportGate
import Stencil.Proofs.WellNested
import Stencil.Proofs.Denotation
import Stencil.Proofs.Recency
import Stencil.Proofs.BareLayout
import Stencil.Proofs.AttributeValues
import Stencil.Proofs.Untouched
import Stencil.Proofs.Serving
import Stencil.Proofs.Branching
import Stencil.Proofs.Iteration
import Stencil.Proofs.Constants
import Stencil.Proofs.LoneHole
import Stencil.Proofs.Preservation
import Stencil.Proofs.Requoting
import Stencil.Proofs.Comparison
import Stencil.Proofs.Shorthand
import Stencil.Proofs.Sinking
import Stencil.Proofs.Unwrapping
import Stencil.Proofs.Headway
import Stencil.Proofs.JsonText
import Stencil.Proofs.PublicOptions
import Stencil.Proofs.VideoAddress
import Stencil.Proofs.Placement
import Stencil.Proofs.InsertionOrder
import Stencil.Proofs.Filler
