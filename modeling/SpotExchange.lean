import SpotExchange.Main
import SpotExchange.Proofs.History
import SpotExchange.Proofs.OrderAccounts
import SpotExchange.Proofs.Conservation
import SpotExchange.Proofs.ExactQuantity
import SpotExchange.Proofs.UncrossedBook
import SpotExchange.Proofs.GreedyWalk
import SpotExchange.Proofs.PriceTimePriority
import SpotExchange.Proofs.OrderLimits
import SpotExchange.Proofs.NotionalBound
import SpotExchange.Proofs.MarketBuyTurn
import SpotExchange.Proofs.DepthMirror
import SpotExchange.Proofs.TradeTerms
import SpotExchange.Proofs.WaitingBuys
import SpotExchange.Proofs.CoveredOrders
import SpotExchange.Proofs.Delivery
import SpotExchange.Proofs.DirectoryShape
import SpotExchange.Proofs.Independence
import SpotExchange.Proofs.PublishedDepth
import SpotExchange.Proofs.CoveredMatching
import SpotExchange.Proofs.RunsInRange
import SpotExchange.Proofs.Reentry
import SpotExchange.Proofs.TrailingZeros
import SpotExchange.Proofs.ProRataShares
import SpotExchange.Proofs.SharedTotal
import SpotExchange.Proofs.RankedDepth
import SpotExchange.Proofs.PassFrame
import SpotExchange.Proofs.Cancellation
import SpotExchange.Proofs.PlaceCancel
import SpotExchange.Proofs.TopOfBook
import SpotExchange.Proofs.CoalescedRemoval
import SpotExchange.Proofs.EventRecord
import SpotExchange.Proofs.DirectoryHistory
import SpotExchange.Proofs.FlooredShares
import SpotExchange.Proofs.CrossingLevels
import SpotExchange.Proofs.OrderText
import SpotExchange.Proofs.PassedLines
