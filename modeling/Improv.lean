import Improv.Client.Dsl
import Improv.CoreModel.LambdaFaults
import Improv.CoreModel.NumberFormat
import Improv.CoreModel.ReadBack
import Improv.Engine.BuildOrder
import Improv.Engine.CouponSchedule
import Improv.Engine.DigitLayout
import Improv.Engine.ExactGrouping
import Improv.Engine.Incremental
import Improv.Engine.SparseMarks
import Improv.Engine.WildcardMatchers
import Improv.Engine.WindowedReductions
import Improv.Engine.Workdays
import Improv.DuckdbModel.Cells
import Improv.ExtFn.Survival
import Improv.GuiCosmic.Cells
import Improv.GuiCosmic.PasteBack
import Improv.GuiWeb.Convergence
import Improv.GuiWeb.EventStream
import Improv.GuiWeb.Screen
import Improv.Lib.Best
import Improv.Lib.Decimal
import Improv.PgModel.Aggregate
import Improv.PgModel.ExactLimbs
import Improv.PgModel.ExactValue
import Improv.PgModel.ExactWords
import Improv.PgModel.FoldCell
import Improv.PgModel.FoldRuns
import Improv.PgModel.LoadFunction
import Improv.PgModel.NumericDiv
import Improv.PgModel.Replay
import Improv.PgModel.ResultTables
import Improv.PgModel.Routing
import Improv.PgModel.Stream
import Improv.Policy.Sessions
import Improv.Policy.Inference
import Improv.Policy.RowSecurity
import Improv.Server.WakeUps
import Improv.Service.ChangeFeed
import Improv.Service.Ids
import Improv.Service.UndoRedo
import Improv.StorageMentat.Interleaving
import Improv.StoragePg.Conflicts
import Improv.StorageCsv.RoundTrip
import Improv.StorageSql.Refresh
