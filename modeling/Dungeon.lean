import Dungeon.Lib.Machine
import Dungeon.Lib.Loop
import Dungeon.Lib.Frees
import Dungeon.Lib.JsonText
import Dungeon.Lib.Tally
import Dungeon.Queue
import Dungeon.Heart
import Dungeon.Imp
import Dungeon.Threads
import Dungeon.Moves
import Dungeon.Ledger
import Dungeon.Books
import Dungeon.Tokens
import Dungeon.Exclusive
import Dungeon.Sleepers
import Dungeon.Limit
import Dungeon.Lifetime
import Dungeon.Maintainer
import Dungeon.Signals
import Dungeon.Timer
import Dungeon.Shutdown
import Dungeon.Iteration
import Dungeon.WakeSource
import Dungeon.Fifo
import Dungeon.Uniq
import Dungeon.Lib.Monitor
import Dungeon.Waiters
import Dungeon.Llist
import Dungeon.LlistHeap
import Dungeon.FetchMatch
import Dungeon.Records
import Dungeon.Stranded
import Dungeon.Bufferlist
import Dungeon.BusyRead
import Dungeon.Lib.Slots
import Dungeon.Lib.Locks
import Dungeon.Lib.Links
import Dungeon.Hasht
import Dungeon.Items
import Dungeon.Mixed
import Dungeon.Locking
import Dungeon.StateDict
import Dungeon.Lib.Block
import Dungeon.Conn
import Dungeon.Sendv
import Dungeon.Recvv
import Dungeon.Echo
import Dungeon.FakeHttpd
import Dungeon.Journal
import Dungeon.Cjson
import Dungeon.CjsonParse
import Dungeon.FdParse
import Dungeon.FdStream
import Dungeon.Dump
import Dungeon.Conf
import Dungeon.LockFree
import Dungeon.Rounds
import Dungeon.Lib.Words
import Dungeon.Murmur
import Dungeon.Lib.CInt
import Dungeon.Lib.Replies
import Dungeon.Timespec
import Dungeon.Bitmap
import Dungeon.CpuBind
import Dungeon.Rlimit
import Dungeon.Startup
import Dungeon.MyLog
import Dungeon.Rooms
import Dungeon.FdPrint
import Dungeon.Interchange
import Dungeon.Lib.Objects
import Dungeon.MemString
import Dungeon.RbtreeRuns
import Dungeon.CjsonPrint
import Dungeon.FdMessages
