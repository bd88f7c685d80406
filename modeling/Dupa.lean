import Dupa.Library.Assoc
import Dupa.Library.Checked
import Dupa.Library.CommonPrefix
import Dupa.Library.FloatRound
import Dupa.Library.Forest
import Dupa.Library.Jaccard
import Dupa.Library.Justified
import Dupa.Library.Session
import Dupa.Library.Sql
import Dupa.Library.Atomic
import Dupa.Library.Script
import Dupa.Library.Worklist
import Dupa.Path
import Dupa.Scanner
import Dupa.ScanDb
import Dupa.ThreadPool
import Dupa.PoolRuns
import Dupa.Traversal
import Dupa.Visits
import Dupa.ScanDirectory
import Dupa.DirCompare
import Dupa.TreeCtor
import Dupa.FillPathHashes
import Dupa.Inputs
import Dupa.Rescan
import Dupa.HashCache
import Dupa.Lookups
import Dupa.DbLib
import Dupa.StoredCache
import Dupa.Rounding
import Dupa.FileTree
import Dupa.FuzzyDedup
import Dupa.Consistent
import Dupa.Choice
import Dupa.Moves
import Dupa.Propagation
import Dupa.Classified
import Dupa.Leaves
import Dupa.BuiltTree
import Dupa.LoadedDb
import Dupa.Turns
import Dupa.Fresh
import Dupa.Bearing
import Dupa.NearestSearch
import Dupa.Exact
import Dupa.Distance
import Dupa.Weights
import Dupa.Averages
import Dupa.Content
import Dupa.Alone
import Dupa.Nesting
import Dupa.Copies
import Dupa.Order
import Dupa.Interesting
import Dupa.Uniqueness
import Dupa.DbOutput
import Dupa.Fractions
import Dupa.Operations
import Dupa.Scattered
import Dupa.SyncCounter
import Dupa.Teardown
import Dupa.Weightless
import Dupa.FailedDump
import Dupa.CompareDb
import Dupa.Printed
import Dupa.Returns
import Dupa.NativePaths
import Dupa.Fillers
import Dupa.Recovered
import Dupa.Reports
import Dupa.StoredComparison
import Dupa.Survey
import Dupa.PrintedClasses
import Dupa.PrintedCopies
import Dupa.StoredResults
import Dupa.Lifetimes
import Dupa.KnownFiles
import Dupa.RemoteCompare
