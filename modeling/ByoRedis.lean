import ByoRedis.Lib.Positions
import ByoRedis.Lib.Trees
import ByoRedis.Avl
import ByoRedis.AvlTree
import ByoRedis.AvlFix
import ByoRedis.AvlDel
import ByoRedis.HashSpec
import ByoRedis.HashSet
import ByoRedis.HashLoad
import ByoRedis.Heap
import ByoRedis.HeapSpec
import ByoRedis.MemberOrder
import ByoRedis.MemberTree
import ByoRedis.SortedSetSpec
import ByoRedis.MemberWalk
import ByoRedis.DualIndex
import ByoRedis.AvlSpec
import ByoRedis.MemberSearch
import ByoRedis.ByteBuffer
import ByoRedis.Lib.LittleEndian
import ByoRedis.ByteBufferSpec
import ByoRedis.Proto
import ByoRedis.Tlv
import ByoRedis.Commands
import ByoRedis.KeySpace
import ByoRedis.TimerSpec
import ByoRedis.DatabaseSpec
import ByoRedis.ExpireSpec
import ByoRedis.CommandSpec
import ByoRedis.MemberCommands
import ByoRedis.RangeCommands
import ByoRedis.Conn
import ByoRedis.Dispatch
import ByoRedis.Lib.Numerals
import ByoRedis.Lib.Frames
import ByoRedis.ResponseSpec
import ByoRedis.StoreRuns
import ByoRedis.Linkage
import ByoRedis.ConnSpec
import ByoRedis.Server
import ByoRedis.Stream
import ByoRedis.Client
import ByoRedis.RequestSpec
import ByoRedis.ClientSpec
import ByoRedis.Lib.WorkQueue
import ByoRedis.ThreadPool
import ByoRedis.CommandFrame
import ByoRedis.Reclaim
import ByoRedis.Lib.Rings
import ByoRedis.IdleList
import ByoRedis.EventLoop
import ByoRedis.Registry
import ByoRedis.LoopRuns
import ByoRedis.Timeout
import ByoRedis.Served
import ByoRedis.Expiry
import ByoRedis.RequestGrammar
import ByoRedis.Spin
import ByoRedis.ClientSafety
import ByoRedis.BufferRuns
import ByoRedis.Writers
import ByoRedis.Encoding
import ByoRedis.Framing
import ByoRedis.IntegerArgs
import ByoRedis.History
import ByoRedis.Lib.Liveness
import ByoRedis.Lib.Words
import ByoRedis.Network
import ByoRedis.Progress
import ByoRedis.Script
import ByoRedis.Drain
import ByoRedis.Lib.Depth
import ByoRedis.MainLoop
import ByoRedis.Punctual
import ByoRedis.Replies
import ByoRedis.Rounds
import ByoRedis.Footprint
import ByoRedis.OwnKeys
import ByoRedis.TestAvl
import ByoRedis.Views
