import ChatRoom.Core.Bytes
import ChatRoom.Core.Run
import ChatRoom.Core.Interleave
import ChatRoom.Core.Slice
import ChatRoom.Core.Varint
import ChatRoom.Core.OnesComplement
import ChatRoom.Core.Traced
import ChatRoom.Core.Decimal
import ChatRoom.Core.Utf8
import ChatRoom.Core.Atoll
import ChatRoom.Core.JsonText
import ChatRoom.Core.JsonParts
import ChatRoom.Core.JsonCombinators
import ChatRoom.Core.SortedMap
import ChatRoom.Core.Lines
import ChatRoom.Core.Monitor
import ChatRoom.Core.CArray
import ChatRoom.Core.Chunks
import ChatRoom.Base.ConfigFileReader
import ChatRoom.Base.ConfigGrammar
import ChatRoom.Base.ConfigRoundTrip
import ChatRoom.Base.LogRolling
import ChatRoom.Base.CountDownLatch
import ChatRoom.Base.WriteThread
import ChatRoom.Base.HexDump
import ChatRoom.Base.HexDumpLines
import ChatRoom.Db.DatabaseMysql
import ChatRoom.Db.MysqlManager
import ChatRoom.Db.ManagerInit
import ChatRoom.Net.ByteBuffer
import ChatRoom.Net.ByteBufferSpec
import ChatRoom.Net.ReadFd
import ChatRoom.Net.ByteDeque
import ChatRoom.Net.TimerQueue
import ChatRoom.Net.RepeatCount
import ChatRoom.Net.ReentrantPass
import ChatRoom.Net.EpollPoller
import ChatRoom.Net.PollerAgreement
import ChatRoom.Net.PollSlots
import ChatRoom.Net.Registration
import ChatRoom.Net.TcpConnection
import ChatRoom.Net.Moves
import ChatRoom.Net.CallbackOrder
import ChatRoom.Net.WriteInterest
import ChatRoom.Net.OutputStream
import ChatRoom.Net.Lifecycle
import ChatRoom.Net.Teardown
import ChatRoom.Net.Ownership
import ChatRoom.Net.ConnectionTable
import ChatRoom.Net.ConnectionNames
import ChatRoom.Net.Refusals
import ChatRoom.Net.Connector
import ChatRoom.Net.SocketOwnership
import ChatRoom.Net.Acceptor
import ChatRoom.Net.LoopQuit
import ChatRoom.Net.Wakeup
import ChatRoom.Net.EventLoopThreadPool
import ChatRoom.Net.ProtocolStream
import ChatRoom.Net.StreamCodec
import ChatRoom.Net.VarintCodec
import ChatRoom.Net.ReaderCursor
import ChatRoom.Net.Checksum
import ChatRoom.Net.TypedStream
import ChatRoom.Net.Int64Fields
import ChatRoom.Chat.Framing
import ChatRoom.Chat.Wire
import ChatRoom.Chat.DecoderBounds
import ChatRoom.Chat.Splitting
import ChatRoom.Chat.ChatServer
import ChatRoom.Chat.StackBytes
import ChatRoom.Chat.Gate
import ChatRoom.Chat.LoginFlag
import ChatRoom.Chat.Kick
import ChatRoom.Chat.SingleLogin
import ChatRoom.Chat.History
import ChatRoom.Chat.StartupLoad
import ChatRoom.Chat.Broadcast
import ChatRoom.Chat.Replies
import ChatRoom.Chat.LoginOutcome
import ChatRoom.Chat.LoginPayload
import ChatRoom.Chat.ReplyText
import ChatRoom.Chat.ReplyForms
import ChatRoom.Chat.ReplyHandlers
import ChatRoom.Chat.Registry
import ChatRoom.Chat.BroadcastOrder
import ChatRoom.Nlohmann.Serializer
import ChatRoom.Nlohmann.Value
import ChatRoom.Nlohmann.Dump
import ChatRoom.Nlohmann.Lexer
import ChatRoom.Nlohmann.Parser
import ChatRoom.Nlohmann.LexerText
import ChatRoom.Nlohmann.NumberText
import ChatRoom.Nlohmann.ParserText
import ChatRoom.Nlohmann.ParserLoop
import ChatRoom.Nlohmann.RoundTrip
import ChatRoom.Chat.Exceptions
import ChatRoom.Chat.StoredMessages
import ChatRoom.Chat.Arrival
