import EstarGo.Player.EarlyBreak
import EstarGo.Evaluator.Barrier
import EstarGo.Evaluator.Deadlock
import EstarGo.Player.Expansion
import EstarGo.Player.Perspective
import EstarGo.Board.Symmetry
import EstarGo.Player.Vertex
import EstarGo.Gtp.Safety
import EstarGo.Gtp.Score
import EstarGo.Gtp.Colors
import EstarGo.Gtp.Pondering
import EstarGo.Gtp.Reclaim
import EstarGo.Player.Pruning
import EstarGo.Tree.Propagation
import EstarGo.Player.DoublePass
import EstarGo.Player.Repetition
import EstarGo.Player.Forbidden
import EstarGo.Tree.Undo
import EstarGo.Evaluator.CycleQueue
import EstarGo.Evaluator.Proxies
import EstarGo.Evaluator.Waiters
import EstarGo.Board.Reset
import EstarGo.Board.Tokens
import EstarGo.Gtp.TimePolicy
import EstarGo.Gtp.Hash
import EstarGo.Gtp.FairExecutor
import EstarGo.Tree.Selfplay
import EstarGo.Evaluator.Speed
import EstarGo.Config.Shipped
import EstarGo.Config.Store
import EstarGo.Board.Crowded
import EstarGo.Board.Vendored
import EstarGo.Board.Material
import EstarGo.Player.EarlyExit
import EstarGo.Search.RootWait
import EstarGo.Evaluator.Shutdown
