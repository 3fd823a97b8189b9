import MetaMonkey.Staging.EscapeOrder
import MetaMonkey.Staging.SourceOrder
import MetaMonkey.Staging.StageText
import MetaMonkey.Staging.Progress
import MetaMonkey.Staging.Simultaneous
import MetaMonkey.Staging.UnparseFlag
import MetaMonkey.Frontend.Parser
import MetaMonkey.Frontend.Layout
import MetaMonkey.Frontend.Reading
import MetaMonkey.Frontend.FunctionArgs
import MetaMonkey.Frontend.MetaTags
import MetaMonkey.Frontend.FunctionName
import MetaMonkey.Frontend.StatementList
import MetaMonkey.Frontend.RoundTrip
import MetaMonkey.Frontend.ComprehensionText
import MetaMonkey.Staging.EscapeSlot
import MetaMonkey.Staging.InlineRequest
import MetaMonkey.Frontend.ForHead
import MetaMonkey.Frontend.ExecStatement
import MetaMonkey.Staging.Session
import MetaMonkey.Staging.WellFormed
import MetaMonkey.Staging.ArrayPartition
import MetaMonkey.Staging.PrintFrame
import MetaMonkey.Staging.WalksEnd
import MetaMonkey.Visualizer.Told
import MetaMonkey.Debugger.Session
import MetaMonkey.Debugger.Evaluator
import MetaMonkey.Frontend.StringLiteral
import MetaMonkey.Frontend.QuasiCopy
