import MySrc.Lib.Run
import MySrc.Lib.Text
import MySrc.Lib.Heap
import MySrc.Lib.Ring
import MySrc.Lib.Chain
import MySrc.Lib.Memory
import MySrc.Lib.Circular
import MySrc.Lib.Leb128
import MySrc.Lib.LowerBound
import MySrc.Lib.Word
import MySrc.Lib.Decimal
import MySrc.Lib.Logged
import MySrc.Lib.Cells
import MySrc.Lib.Sorting
import MySrc.Lib.BinaryHeap
import MySrc.Lib.OrdMap
import MySrc.Lib.Replica
import MySrc.Lib.CheckDigit
import MySrc.Lib.Expiry
import MySrc.SwapQueue
import MySrc.Cstring
import MySrc.MinHeap
import MySrc.Mycache.Coding
import MySrc.Mycache.CodingWidths
import MySrc.Mycache.Protocol
import MySrc.Mycache.ProtocolSafety
import MySrc.Mycache.Levels
import MySrc.Mycache.SkipList
import MySrc.Mycache.Kfifo
import MySrc.Mycache.KfifoThreads
import MySrc.Mycache.Hash
import MySrc.Mycache.Kvcache
import MySrc.Mycache.KvcacheRuns
import MySrc.Mycache.KvcacheTtl
import MySrc.Mycache.Bitmap
import MySrc.Mycache.Rbtree
import MySrc.Mycache.MemPool
import MySrc.Mycache.MemPoolRuns
import MySrc.Mycache.MemPoolSearch
import MySrc.Mycache.MemPoolCounters
import MySrc.Mycache.PollfdArray
import MySrc.Mycache.ReadNodes
import MySrc.CxxUtils.ConfigFile
import MySrc.CxxUtils.ConfigLoad
import MySrc.CxxUtils.ConfigReload
import MySrc.CxxUtils.ConfigSyntax
import MySrc.SortAlgorithms.Slice
import MySrc.SortAlgorithms.InsertSort
import MySrc.SortAlgorithms.ExchangeSort
import MySrc.SortAlgorithms.MergeSort
import MySrc.SortAlgorithms.HeapSort
import MySrc.SortAlgorithms.SortNode
import MySrc.TemplateHttp.BufferManage
import MySrc.TemplateHttp.BufferStream
import MySrc.TemplateHttp.BinMsg
import MySrc.TemplateHttp.BinMsgEncode
import MySrc.TemplateHttp.BinMsgDecode
import MySrc.TemplateHttp.BinMsgCodec
import MySrc.TemplateHttp.HttpRequestPacket
import MySrc.TemplateHttp.Split
import MySrc.TemplateHttp.HttpHead
import MySrc.TemplateHttp.HttpGrammar
import MySrc.TemplateHttp.HttpManager
import MySrc.TemplateHttp.BlockQueue
import MySrc.TemplateHttp.HttpServer
import MySrc.TemplateHttp.HttpServerRuns
import MySrc.NotifyAdapter.ProtocolCodec
import MySrc.NotifyAdapter.MessageCodec
import MySrc.NotifyAdapter.TcpServer
import MySrc.NotifyAdapter.TcpServerManager
import MySrc.NotifyAdapter.IdentityMap
import MySrc.NotifyAdapter.Framing
import MySrc.NotifyAdapter.Authentication
import MySrc.NotifyAdapter.RandomKey
import MySrc.LogingameServer.PreventService
import MySrc.PythonProjects.Cache
import MySrc.PythonProjects.DatagramFactory
import MySrc.PythonProjects.UnpackLoops
import MySrc.PythonProjects.FieldPackers
import MySrc.LogingameServer.CJson
import MySrc.LogingameServer.SessionInfo
import MySrc.TouchServer.FilterConfig
import MySrc.TouchServer.TouchCore
import MySrc.TouchServer.UpdateConfigs
import MySrc.TouchServer.Requests
import MySrc.NotifyAdapter.SendStream
import MySrc.TemplateHttp.UrlCode
import MySrc.TemplateHttp.HttpCursor
import MySrc.TemplateHttp.HttpQuery
import MySrc.TemplateHttp.Numbers
import MySrc.TemplateHttp.HexString
import MySrc.TemplateHttp.ShardHash
import MySrc.TemplateHttp.JsonArray
import MySrc.TemplateHttp.HttpParams
import MySrc.TemplateHttp.BufferStrings
import MySrc.TemplateHttp.Clock
import MySrc.TemplateHttp.ClockTicks
import MySrc.PythonProjects.TipsHandler
import MySrc.PythonProjects.TipsIsolation
import MySrc.PythonProjects.DbConf
import MySrc.PythonProjects.RestrictCond
import MySrc.LogingameServer.LoginHistory
import MySrc.LogingameServer.GameInfo
import MySrc.LogingameServer.PaperId
import MySrc.LogingameServer.UrlSign
import MySrc.TouchServer.QueueTimeout
import MySrc.TouchServer.UnrestrictTtl
import MySrc.TemplateHttp.RwDetacher
import MySrc.NotifyAdapter.ShellCmd
import MySrc.NotifyAdapter.MessageMap
