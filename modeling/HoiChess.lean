import HoiChess.Lib.WordSet
import HoiChess.Lib.WordParts
import HoiChess.Lib.Grid
import HoiChess.Lib.Incremental
import HoiChess.Lib.SwapFilter
import HoiChess.Lib.Run
import HoiChess.Lib.History
import HoiChess.Lib.Window
import HoiChess.Lib.Exec
import HoiChess.Lib.Agreement
import HoiChess.Lib.Cutter
import HoiChess.Lib.DirectMapped
import HoiChess.Lib.Reflection
import HoiChess.Lib.ScanOrder
import HoiChess.Lib.Accumulate
import HoiChess.Lib.Brackets
import HoiChess.Lib.OrderedMap
import HoiChess.Lib.StdString
import HoiChess.Lib.Stdio
import HoiChess.Lib.Monitor
import HoiChess.Lib.Undo
import HoiChess.Chess.Basic
import HoiChess.Chess.Bitboard
import HoiChess.Chess.BitScan
import HoiChess.Chess.Rotated
import HoiChess.Chess.Move
import HoiChess.Chess.Movelist
import HoiChess.Chess.Board
import HoiChess.Chess.Rules
import HoiChess.Chess.Consistent
import HoiChess.Chess.Attack
import HoiChess.Chess.Sane
import HoiChess.Chess.Encode
import HoiChess.Chess.Simulation
import HoiChess.Chess.Fields
import HoiChess.Chess.Generate
import HoiChess.Chess.Listed
import HoiChess.Chess.Fen
import HoiChess.Chess.WellPlaced
import HoiChess.Chess.Reached
import HoiChess.Chess.Unmake
import HoiChess.Chess.Mobility
import HoiChess.Chess.Exact
import HoiChess.Chess.Evasion
import HoiChess.Chess.Escapes
import HoiChess.Chess.Fresh
import HoiChess.Chess.Validity
import HoiChess.Chess.ParseMove
import HoiChess.Chess.Playable
import HoiChess.Chess.San
import HoiChess.Chess.ReadSan
import HoiChess.Chess.Unambiguous
import HoiChess.Chess.Pins
import HoiChess.Chess.BackRanks
import HoiChess.Chess.ReadBack
import HoiChess.Chess.GetFen
import HoiChess.Chess.Score
import HoiChess.Chess.ScoreBounds
import HoiChess.Chess.Addends
import HoiChess.Chess.PawnLoop
import HoiChess.Chess.Mirror
import HoiChess.Chess.Accepted
import HoiChess.Chess.Alike
import HoiChess.Chess.OneMan
import HoiChess.Common.Clock
import HoiChess.Common.TimeControl
import HoiChess.Common.Game
import HoiChess.Common.GameClocks
import HoiChess.Common.Node
import HoiChess.Common.Hash
import HoiChess.Common.Verdict
import HoiChess.Common.Repetition
import HoiChess.Common.Search
import HoiChess.Common.Termination
import HoiChess.Common.SearchRuns
import HoiChess.Common.Iteration
import HoiChess.Common.SoundNode
import HoiChess.Common.Calls
import HoiChess.Common.FailHard
import HoiChess.Common.Mated
import HoiChess.Common.Aspiration
import HoiChess.Common.NodePool
import HoiChess.Common.DrawRules
import HoiChess.Common.Abort
import HoiChess.Common.BestLine
import HoiChess.Common.Exhaust
import HoiChess.Common.MoveOrdering
import HoiChess.Common.Enumerate
import HoiChess.Common.Mateless
import HoiChess.Common.PhantomMate
import HoiChess.Common.MaterialDraw
import HoiChess.Common.Scheduling
import HoiChess.Common.ParallelOrder
import HoiChess.Common.Poison
import HoiChess.Common.SlaveStore
import HoiChess.Common.SlaveTurns
import HoiChess.Common.ParallelValue
import HoiChess.Common.NodeCounts
import HoiChess.Common.BookMap
import HoiChess.Common.BookBuild
import HoiChess.Common.Pgn
import HoiChess.Common.PgnText
import HoiChess.Common.PgnRoundTrip
import HoiChess.Common.PgnComment
import HoiChess.Common.PgnFiles
import HoiChess.Common.Epd
import HoiChess.Common.EpdRecords
import HoiChess.Common.Environment
import HoiChess.Common.BookSize
import HoiChess.Common.Evaluator
import HoiChess.Common.PawnHash
import HoiChess.Common.EvalCache
import HoiChess.Common.EvalMirror
import HoiChess.Common.EvalRange
import HoiChess.Common.ScoreRange
import HoiChess.Common.ParallelRange
import HoiChess.Common.PawnOrder
import HoiChess.Xiangqi.Basic
import HoiChess.Xiangqi.Mailbox
import HoiChess.Xiangqi.Board
import HoiChess.Xiangqi.Rules
import HoiChess.Xiangqi.Attack
import HoiChess.Xiangqi.Sane
import HoiChess.Xiangqi.Simulation
import HoiChess.Xiangqi.Generate
import HoiChess.Xiangqi.Legality
import HoiChess.Xiangqi.Fen
import HoiChess.Xiangqi.Reached
import HoiChess.Xiangqi.Unmake
import HoiChess.Xiangqi.SameMen
import HoiChess.Xiangqi.FenSafety
import HoiChess.Xiangqi.ForeignMove
import HoiChess.Xiangqi.Notation
import HoiChess.Xiangqi.GetFen
import HoiChess.Xiangqi.Positions
import HoiChess.Xiangqi.Perpetual
import HoiChess.Common.FilterIllegal
import HoiChess.Common.Queue
import HoiChess.Common.Background
