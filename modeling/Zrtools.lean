import Zrtools.Lib.ReflectedCrc
import Zrtools.Crc32
import Zrtools.Lib.FrameLog
import Zrtools.Lib.LittleEndian
import Zrtools.Wal.Entry
import Zrtools.Wal.File
import Zrtools.Wal.Log
import Zrtools.Lib.Schedule
import Zrtools.Wal.Sessions
import Zrtools.Wal.TornTail
import Zrtools.Wal.Restart
import Zrtools.Wal.Replay
import Zrtools.Lib.IdleTurns
import Zrtools.Wal.Isolation
import Zrtools.Wal.RoundTrip
import Zrtools.Wal.Truncate
import Zrtools.Wal.Names
import Zrtools.Lib.PackedWord
import Zrtools.Snowflake
import Zrtools.IoPool.Model
import Zrtools.IoPool.Balance
import Zrtools.IoPool.Done
import Zrtools.IoPool.Blocked
import Zrtools.IoPool.Deadlock
import Zrtools.Lib.SharedMutex
import Zrtools.LockedHashMap
import Zrtools.Lib.ByteMemory
import Zrtools.Lib.Chain
import Zrtools.Lib.BlockPool
import Zrtools.Lib.Refinement
import Zrtools.UltraQ.Queue
import Zrtools.UltraQ.Shape
import Zrtools.UltraQ.Threads
import Zrtools.UltraQ.Fifo
import Zrtools.UltraBuf.Buffer
import Zrtools.UltraBuf.Stream
import Zrtools.UltraBuf.Bound
import Zrtools.Lib.SharedMemory
import Zrtools.Lib.Sequential
import Zrtools.ShmCheckpoint
import Zrtools.Lib.Register
import Zrtools.ShmCheckpoint.Stages
import Zrtools.ShmCheckpoint.Readers
import Zrtools.ShmRing.Model
import Zrtools.ShmRing.Tape
import Zrtools.ShmRing.Fields
import Zrtools.ShmRing.Producer
import Zrtools.ShmRing.Consumer
import Zrtools.ShmRing.Delivery
import Zrtools.ShmRing.Calls
import Zrtools.ShmRing.Appends
import Zrtools.ShmRing.Placed
import Zrtools.ShmRing.Laid
import Zrtools.ShmRing.Walks
import Zrtools.ShmRing.Process
import Zrtools.ShmRing.Recovery
import Zrtools.ShmRing.Overrun
import Zrtools.ShmRing.ReadOrder
import Zrtools.ShmRing.Opening
import Zrtools.ShmRing.Pipeline
import Zrtools.ShmRing.Persistence
import Zrtools.ShmRing.Durability
import Zrtools.ShmRing.Record
import Zrtools.ShmRing.Statistics
import Zrtools.ShmRing.Failure
import Zrtools.ShmRing.Space
import Zrtools.Lib.Walk
import Zrtools.ShmRing.Scan
import Zrtools.ShmRing.Headers
import Zrtools.ShmRing.Agreement
import Zrtools.ShmRing.Corruption
import Zrtools.ShmRing.Exactness
import Zrtools.Wal.Builder
import Zrtools.TypedAppend
import Zrtools.Lib.CrcBursts
import Zrtools.Snowflake.Layout
import Zrtools.Snowflake.Calls
import Zrtools.Wal.Cadence
import Zrtools.UltraBuf.Drained
import Zrtools.Lib.AccessLog
import Zrtools.ShmCheckpoint.Output
import Zrtools.Lib.CInteger
import Zrtools.Lib.Gregorian
import Zrtools.Time.Calendar
import Zrtools.Time.Timegm
import Zrtools.Time.DateTime
import Zrtools.Time.Fields
import Zrtools.Time.Normal
import Zrtools.Lib.Strings
import Zrtools.Time.Format
import Zrtools.Time.Epoch13
import Zrtools.Time.Buffer
import Zrtools.Bmic
import Zrtools.Bmic.Upsert
import Zrtools.Compare.Equal
import Zrtools.Compare.Keys
import Zrtools.Lib.Extremum
import Zrtools.Compare.Extremes
import Zrtools.Lib.Moments
import Zrtools.Lib.Rounding
import Zrtools.Lib.Decimals
import Zrtools.Math.Sma
import Zrtools.Math.SmaInt64
import Zrtools.Math.Bollinger
import Zrtools.Math.Ticks
import Zrtools.IoPool.Dispatch
import Zrtools.Lib.Getline
import Zrtools.StrUtils
import Zrtools.Lib.CString
import Zrtools.Fill
import Zrtools.Files.Writer
import Zrtools.Lib.CStdio
import Zrtools.Files.Legacy
import Zrtools.Misc
import Zrtools.UltraBuf.Memory
import Zrtools.UltraQ.Memory
import Zrtools.IoPool.Lifecycle
import Zrtools.IoPool.Shutdown
import Zrtools.Files.Sessions
import Zrtools.ShmDirect
import Zrtools.Bmic.Table
import Zrtools.IoPool.Registry
import Zrtools.Fill.Numbers
import Zrtools.Wal.Following
import Zrtools.Snowflake.Restarts
import Zrtools.ShmCheckpoint.Version
