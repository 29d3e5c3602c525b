import BotManager.AttackFrozen
import BotManager.BarRing
import BotManager.BotTeardown
import BotManager.CmdTree
import BotManager.CtlLines
import BotManager.CurlFlight
import BotManager.CurlOnce
import BotManager.DbTxn
import BotManager.DeferredRefusal
import BotManager.DossierResolve
import BotManager.DownloadRestart
import BotManager.DownloadSlots
import BotManager.DownloadTiles
import BotManager.EmbedAccount
import BotManager.ExchangeDispatch
import BotManager.ExchangePump
import BotManager.FactLadder
import BotManager.HoldDrain
import BotManager.ImageUrl
import BotManager.IrcReconnect
import BotManager.IrcRelay
import BotManager.KvFlush
import BotManager.KvPrefix
import BotManager.KvRestart
import BotManager.MarketBooking
import BotManager.MarketExposure
import BotManager.MarketLedger
import BotManager.MarketRestore
import BotManager.MarketSnapshot
import BotManager.NextOpen
import BotManager.PersistQueue
import BotManager.PluginRollback
import BotManager.PoolSlots
import BotManager.RedactUrl
import BotManager.ReplayCursor
import BotManager.SockEvents
import BotManager.SockStream
import BotManager.SockWake
import BotManager.TaskAccounting
import BotManager.TaskCancel
import BotManager.TaskOrder
import BotManager.TmfaAgreement
import BotManager.TmfaIdle
import BotManager.UrlCanon
import BotManager.WarmChain
import BotManager.WhenStored
import BotManager.WikiFacts
import BotManager.WsBinding
