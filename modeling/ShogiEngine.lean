import ShogiEngine.Library.BitTricks
import ShogiEngine.Library.LineSystem
import ShogiEngine.Shogi.Types
import ShogiEngine.Shogi.Bitboard
import ShogiEngine.Rules.Geometry
import ShogiEngine.Rules.Attack
import ShogiEngine.Rules.Position
import ShogiEngine.Shogi.Tables
import ShogiEngine.Shogi.Sliders
import ShogiEngine.Shogi.RayWalk
import ShogiEngine.Shogi.Board
import ShogiEngine.Shogi.Hand
import ShogiEngine.Shogi.MakeMove
import ShogiEngine.Library.XorHash
import ShogiEngine.Shogi.Setup
import ShogiEngine.Shogi.Hash
import ShogiEngine.Shogi.Sfen
import ShogiEngine.Shogi.PackedSfen
import ShogiEngine.Shogi.Representation
import ShogiEngine.Shogi.Conservation
import ShogiEngine.Shogi.Flip
import ShogiEngine.Shogi.Repetition
import ShogiEngine.Shogi.MoveGen
import ShogiEngine.Shogi.LegalMoves
import ShogiEngine.Shogi.Evasions
import ShogiEngine.Library.UndoStack
import ShogiEngine.Shogi.Runs
import ShogiEngine.Shogi.CheckMoves
import ShogiEngine.Shogi.MateInOne
import ShogiEngine.Shogi.EvasionCount
import ShogiEngine.Mate.RouteGame
import ShogiEngine.Mate.DfpnSound
import ShogiEngine.Mate.DfpnVerdict
import ShogiEngine.Shogi.PackedRoundTrip
import ShogiEngine.Mate.ShallowVerdict
import ShogiEngine.Mate.BnsFinals
import ShogiEngine.Mate.BnsTable
import ShogiEngine.Nnue.NetRoundTrip
import ShogiEngine.Mate.BnsViews
import ShogiEngine.Nnue.Simd
import ShogiEngine.Nnue.FeatureBounds
import ShogiEngine.Nnue.BucketTables
import ShogiEngine.Nnue.FrameInvariance
import ShogiEngine.Shogi.SfenWriter
import ShogiEngine.Usi.RootMateState
import ShogiEngine.Usi.GoStop
import ShogiEngine.Usi.TimeController
import ShogiEngine.Nnue.EvalCache
import ShogiEngine.Nnue.NetCorruption
import ShogiEngine.Mcts.ParallelSearch
import ShogiEngine.Mcts.Publication
import ShogiEngine.Mcts.ProvenEdges
import ShogiEngine.Mcts.RootGuard
import ShogiEngine.Mcts.TreeReuse
import ShogiEngine.Mcts.VisitCounts
import ShogiEngine.Datagen.SelfPlayLabels
import ShogiEngine.Mate.BnsThresholds
import ShogiEngine.Mate.BnsClusters
import ShogiEngine.Book.GoteExitSolver
import ShogiEngine.Mate.DfpnTree
import ShogiEngine.Mate.DfpnProgress
import ShogiEngine.Book.YbbFormat
import ShogiEngine.Book.OpeningBook
import ShogiEngine.Book.GoteBookGenerator
import ShogiEngine.Book.GotePolicy
import ShogiEngine.Library.BinarySearch
import ShogiEngine.Nnue.Record
import ShogiEngine.Nnue.PolicyNet
import ShogiEngine.Nnue.AccumulatorRange
import ShogiEngine.Shogi.SeeValue
import ShogiEngine.Mcts.TreeMemory
import ShogiEngine.Mcts.Butterfly
import ShogiEngine.Pyext.BatchReader
import ShogiEngine.Usi.TimeManager
import ShogiEngine.Usi.GoCommand
import ShogiEngine.Usi.PositionCommand
import ShogiEngine.Mcts.PvReport
