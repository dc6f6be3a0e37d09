import LinkedTables.Cache.Tree
import LinkedTables.Program.Report
import LinkedTables.Proofs.Analysis.Depth
import LinkedTables.Proofs.Analysis.Separate
import LinkedTables.Proofs.Cache.Bookkeeping
import LinkedTables.Proofs.Cache.Canonical
import LinkedTables.Proofs.Cache.Compact
import LinkedTables.Proofs.Cache.Forgeries
import LinkedTables.Proofs.Cache.Reused
import LinkedTables.Proofs.Cache.Sessions
import LinkedTables.Proofs.Cache.Stored
import LinkedTables.Proofs.Data.Counts
import LinkedTables.Proofs.Expr.Bytes
import LinkedTables.Proofs.Expr.Derived
import LinkedTables.Proofs.Links.Paths
import LinkedTables.Proofs.Links.Spelled
import LinkedTables.Proofs.Program.Shown
import LinkedTables.Proofs.Run.Blocks
import LinkedTables.Proofs.Run.Independent
import LinkedTables.Proofs.Run.Lookup
import LinkedTables.Proofs.Run.Monotone
import LinkedTables.Proofs.Run.Refused
import LinkedTables.Proofs.Run.Typed
