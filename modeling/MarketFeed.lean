import MarketFeed.ShardDepth
import MarketFeed.RingBuffer
import MarketFeed.Wire
import MarketFeed.Packet
import MarketFeed.Sharding
import MarketFeed.Pool
import MarketFeed.Library.Routing
import MarketFeed.ShardedReplay
import MarketFeed.LiveFeed
import MarketFeed.LivePath
import MarketFeed.LiveDelivery
import MarketFeed.LiveWait
import MarketFeed.Datagram
import MarketFeed.Unchecked
import MarketFeed.CrossBook
import MarketFeed.LiveSession
import MarketFeed.LiveCalls
import MarketFeed.LiveReuse
import MarketFeed.QueueBook
import MarketFeed.QueueTracker
import MarketFeed.Library.SwapRemove
import MarketFeed.Simulator
import MarketFeed.SimulatorStep
import MarketFeed.Library.Listing
import MarketFeed.SimulatorStream
import MarketFeed.VenueFeed
import MarketFeed.Library.Lifetimes
import MarketFeed.Library.Leader
import MarketFeed.Backtest
import MarketFeed.BacktestFates
import MarketFeed.BacktestResults
import MarketFeed.TwoBooks
import MarketFeed.FillRule
import MarketFeed.Nbbo
import MarketFeed.TradeThroughGuard
import MarketFeed.Band
import MarketFeed.QueueTotals
import MarketFeed.QuoteSize
import MarketFeed.LockedCrossed
import MarketFeed.Overtaking
import MarketFeed.QueueInvariant
import MarketFeed.ReusedIds
import MarketFeed.LatencyBuffer
import MarketFeed.QueueLeftover
import MarketFeed.BacktestAgain
import MarketFeed.GeneratedBooks
import MarketFeed.OfflineBooks
import MarketFeed.LiveLedger
import MarketFeed.LiveCounting
import MarketFeed.LivePolling
import MarketFeed.LiveReads
import MarketFeed.LiveBooks
import MarketFeed.BacktestReference
import MarketFeed.GeneratedQueues
import MarketFeed.Library.Window
import MarketFeed.QueueReference
import MarketFeed.VenueMarket
import MarketFeed.Library.Csv
import MarketFeed.Library.Decimal
import MarketFeed.BacktestCsv
import MarketFeed.GuardedMarket
import MarketFeed.FaultInjection
import MarketFeed.NbboReference
import MarketFeed.LiveTeardown
import MarketFeed.Library.Simulation
import MarketFeed.RingCalls
import MarketFeed.RingReplay
import MarketFeed.RingSimulation
import MarketFeed.WeakRing
import MarketFeed.WeakRingSteps
import MarketFeed.LaxReplay
import MarketFeed.WeakReplay
import MarketFeed.WeakSimulation
import MarketFeed.CorrectnessTest
