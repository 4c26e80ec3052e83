import Sirit.Framing
import Sirit.Interning
import Sirit.Reservation
import Sirit.LittleEndian
import Sirit.StringLiterals
import Sirit.Listing
import Sirit.Refinement
import Sirit.Assembled
import Sirit.Ids
import Sirit.Deduplication
import Sirit.Sections
import Sirit.Defining
import Sirit.Layout
import Sirit.Backpatch
import Sirit.PhiAddress
import Sirit.DeferredPhi
import Sirit.Projections
import Sirit.Interleaving
import Sirit.Leftover
import Sirit.ResultIds
import Sirit.WordCount
import Sirit.SwitchTable
import Sirit.Represented
import Sirit.EntryPoints
import Sirit.Imports
import Sirit.DefinedFirst
import Sirit.StringLength
import Sirit.StoresInside
import Sirit.Disassembly
import Sirit.ParseInstructions
import Sirit.DeclarationTrees
import Sirit.Ascending
import Sirit.SingleDefinition
import Sirit.DeclarationCalls
import Sirit.Chaining
import Sirit.HashedDeclarations
import Sirit.NamedCalls
import Sirit.NamedIds
import Sirit.Renumbering
import Sirit.SizedRuns
import Sirit.SizedRuns
