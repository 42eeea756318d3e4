import Wax.Explore.Bound
import Wax.Collections.VectorVersions
import Wax.Emit.Agreement
import Wax.Emit.CastValid
import Wax.Wap.MultiAssign
import Wax.Wap.Privacy
import Wax.Wap.Naming
import Wax.Wasm.Metadata
import Wax.Wisp.Isolation
import Wax.Wisp.Equality
import Wax.Cond.Explain
import Wax.Explore.Dedup
import Wax.Number.HexBits
import Wax.Syntax.ParseRecover
import Wax.Syntax.Associate
import Wax.Emit.NanLiteral
import Wax.Emit.Vector
import Wax.Syntax.CondText
import Wax.Number.Ints
import Wax.BodyRuns
import Wax.Syntax.Positions
import Wax.Exits.Order
import Wax.Was.Locations
import Wax.Wap.Resolve
import Wax.Wisp.Conversions
import Wax.Alias.Module
import Wax.Emit.ClaimName
import Wax.Printer.Column
import Wax.Wasm.Quoted
import Wax.Text.PortRuns
import Wax.Collections.HashVersions
import Wax.Wisp.Replies
