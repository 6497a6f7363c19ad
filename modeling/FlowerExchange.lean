import FlowerExchange.App.Theorems.Application
import FlowerExchange.App.Theorems.ClientIds
import FlowerExchange.App.Theorems.GeneratedOrders
import FlowerExchange.App.Theorems.Online
import FlowerExchange.App.Theorems.Progress
import FlowerExchange.App.Theorems.ReadBack
import FlowerExchange.App.Theorems.ReadValues
import FlowerExchange.App.Theorems.ReportSize
import FlowerExchange.Common.Theorems.ParsingCursor
import FlowerExchange.Common.Theorems.PriceText
import FlowerExchange.Common.Theorems.TimestampShutdown
import FlowerExchange.Io.Theorems.CsvRange
import FlowerExchange.Matching.Theorems.BookNeighbours
import FlowerExchange.Matching.Theorems.BookSanity
import FlowerExchange.Matching.Theorems.Conservation
import FlowerExchange.Matching.Theorems.Guarded
import FlowerExchange.Matching.Theorems.Independence
import FlowerExchange.Matching.Theorems.Interchangeable
import FlowerExchange.Matching.Theorems.LifeCycle
import FlowerExchange.Matching.Theorems.LimitPrice
import FlowerExchange.Matching.Theorems.Memory
import FlowerExchange.Matching.Theorems.PriceTimePriority
import FlowerExchange.Matching.Theorems.Priority
import FlowerExchange.Matching.Theorems.Rejections
import FlowerExchange.Matching.Theorems.Slicing
import FlowerExchange.Matching.Theorems.Symmetry
import FlowerExchange.Matching.Theorems.Termination
import FlowerExchange.Matching.Theorems.Timestamps
