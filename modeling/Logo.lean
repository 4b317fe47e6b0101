import Logo.Main
import Logo.Proofs.Accessors
import Logo.Proofs.Atomic
import Logo.Proofs.Blocks
import Logo.Proofs.Bounds
import Logo.Proofs.Caseless
import Logo.Proofs.Chains
import Logo.Proofs.Confinement
import Logo.Proofs.Counting
import Logo.Proofs.Coverage
import Logo.Proofs.DeadCode
import Logo.Proofs.Extents
import Logo.Proofs.Gathering
import Logo.Proofs.InOrder
import Logo.Proofs.Invocations
import Logo.Proofs.Lasting
import Logo.Proofs.Mistyped
import Logo.Proofs.Nesting
import Logo.Proofs.Number.Integers
import Logo.Proofs.Positions
import Logo.Proofs.Printed
import Logo.Proofs.Provenance
import Logo.Proofs.Random
import Logo.Proofs.Ranges
import Logo.Proofs.Rejection
import Logo.Proofs.Scope
import Logo.Proofs.Spacing
import Logo.Proofs.Traversals
