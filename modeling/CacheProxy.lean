import CacheProxy.Decimal
import CacheProxy.ByteMachine
import CacheProxy.Mbuf
import CacheProxy.Receive
import CacheProxy.Framing
import CacheProxy.LongFrame
import CacheProxy.RedisCommand
import CacheProxy.RedisRequest
import CacheProxy.RedisRequestSim
import CacheProxy.RedisEncoding
import CacheProxy.ClientReceive
import CacheProxy.RedisFraming
import CacheProxy.RedisEval
import CacheProxy.CopyBulk
import CacheProxy.RedisFragment
import CacheProxy.RedisPartition
import CacheProxy.ProxyState
import CacheProxy.Forwarding
import CacheProxy.Sending
import CacheProxy.ProxyRun
import CacheProxy.Ledger
import CacheProxy.LedgerQueues
import CacheProxy.LedgerFrame
import CacheProxy.LedgerOrder
import CacheProxy.LedgerTree
import CacheProxy.LedgerGroups
import CacheProxy.LedgerSettled
import CacheProxy.LedgerJournal
import CacheProxy.LedgerPrelude
import CacheProxy.LedgerSound
import CacheProxy.ProxyLedger
import CacheProxy.Grouping
import CacheProxy.RefineDone
import CacheProxy.RefineClose
import CacheProxy.RefineForward
import CacheProxy.RefineReceive
import CacheProxy.SendLoop
import CacheProxy.RefineSend
import CacheProxy.RefineServer
import CacheProxy.RefineRun
import CacheProxy.RedisResponse
import CacheProxy.RedisPool
import CacheProxy.RunSafety
import CacheProxy.RunPairing
import CacheProxy.RunLog
import CacheProxy.RunPrelude
import CacheProxy.RedisSound
import CacheProxy.TokenParser
import CacheProxy.MemcacheRequest
import CacheProxy.FramedStream
import CacheProxy.MemcacheFraming
import CacheProxy.MemcacheRetrieval
import CacheProxy.Reported
import CacheProxy.MemcacheCut
import CacheProxy.Stats
import CacheProxy.ServerPool
import CacheProxy.Ejection
import CacheProxy.Ketama
import CacheProxy.ServerOrder
import CacheProxy.MemcacheKeys
import CacheProxy.ConfParse
import CacheProxy.ParserView
import CacheProxy.FirstFrame
import CacheProxy.RedisReply
import CacheProxy.RedisError
import CacheProxy.Gauges
import CacheProxy.BackendIndex
import CacheProxy.FragmentRoute
import CacheProxy.RbtreeRun
import CacheProxy.ConnectionBudget
import CacheProxy.ServerLine
import CacheProxy.HashTag
import CacheProxy.KetamaPoints
import CacheProxy.MessageLength
import CacheProxy.JsonText
import CacheProxy.StatsReport
import CacheProxy.Jenkins
