import Patchbay.Main
import Patchbay.Proofs.Compilation
import Patchbay.Proofs.Graph.Locality
import Patchbay.Proofs.Project.Locality
import Patchbay.Proofs.Flat.PinKeys
import Patchbay.Proofs.Project.LinkEnds
import Patchbay.Proofs.Flat.Group
import Patchbay.Proofs.Flat.Wiring
import Patchbay.Service.Route
import Patchbay.Proofs.Flat.Settling
import Patchbay.Proofs.Flat.TerminalTypes
import Patchbay.Proofs.Flat.OutLinks
import Patchbay.Proofs.Flat.Tainting
import Patchbay.Proofs.CompiledUnit
import Patchbay.Proofs.InputPins
import Patchbay.Proofs.UnitOrder
import Patchbay.Proofs.Project.Reading
import Patchbay.Proofs.Graph.Renaming
import Patchbay.Proofs.Project.LinkEntries
import Patchbay.Proofs.Project.Renaming
import Patchbay.Proofs.Flat.Renaming
import Patchbay.Proofs.UnitNames
import Patchbay.Proofs.Decimal.Layout
import Patchbay.Proofs.Json.Quoting
import Patchbay.Proofs.Json.Printing
import Patchbay.Proofs.Flat.Record
import Patchbay.Proofs.Program.Decoding
import Patchbay.Proofs.Flat.GlobalIds
import Patchbay.Proofs.Project.Parts
import Patchbay.Proofs.Program.Names
import Patchbay.Proofs.Program.Confinement
import Patchbay.Proofs.UnitText
import Patchbay.Proofs.Graph.Search
import Patchbay.Proofs.Project.Nesting
import Patchbay.Proofs.Project.Strictness
import Patchbay.Proofs.Flat.Replacement
import Patchbay.Proofs.Flat.Provenance
import Patchbay.Proofs.Flat.Clashes
import Patchbay.Proofs.Project.Acceptance
import Patchbay.Proofs.Project.Shapes
import Patchbay.Proofs.Program.Splicing
import Patchbay.Proofs.Program.Verbatim
import Patchbay.Proofs.Flat.Spreading
import Patchbay.Proofs.Service.Handling
import Patchbay.Proofs.CommandLine.Writing
