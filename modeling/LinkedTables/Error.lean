import LinkedTables.Data.Matrix
import LinkedTables.Listing.Writer
import LinkedTables.Run.Kernel
import LinkedTables.Settings

/-!
# Errors

The faults of all parts of the library, each with its kind and its message.
-/

namespace LinkedTables

inductive Error where
  | dataset (fault : DatasetFault)
  | matrix (fault : MatrixFault)
  | graph (fault : GraphFault)
  | analysis (fault : AnalysisFault)
  | writing (fault : WriteFault)
  | listing (fault : ListingFault)
  | program (fault : ProgramFault)
  | trace (fault : TraceFault)
  | binding (fault : BindFault)
  | running (fault : RunFault)
  | settings (fault : SettingsFault)
  | cacheUnavailable
  deriving DecidableEq

namespace Error

def kind : Error → ErrorKind
  | dataset _ => .shape
  | matrix _ => .shape
  | graph _ => .graph
  | analysis f => f.kind
  | writing _ => .internal
  | listing _ => .internal
  | program _ => .internal
  | trace _ => .shape
  | binding f => f.kind
  | running f => f.kind
  | settings _ => .compile
  | cacheUnavailable => .cache

def message : Error → String
  | dataset f => ErrorKind.shape.told f.message
  | matrix f => ErrorKind.shape.told f.message
  | graph f => ErrorKind.graph.told f.message
  | analysis f => f.message
  | writing f => ErrorKind.internal.told f.message
  | listing f => ErrorKind.internal.told f.message
  | program f => ErrorKind.internal.told f.message
  | trace f => ErrorKind.shape.told f.message
  | binding f => f.kind.told f.message
  | running f => f.kind.told f.message
  | settings f => ErrorKind.compile.told f.message
  | cacheUnavailable => ErrorKind.cache.told "directory cannot be used"

end Error

end LinkedTables
