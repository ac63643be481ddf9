import SStock.Framework.Run
import SStock.Model.App
import SStock.Model.Steps
import SStock.Portfolio.Tracking
import SStock.Portfolio.Identity
import SStock.Search.Screens
import SStock.Search.Latest
import SStock.Portfolio.Display
import SStock.Portfolio.Quotes
import SStock.Portfolio.Origins
import SStock.Portfolio.DatasetCode
import SStock.Portfolio.Ledger
import SStock.Portfolio.RefreshOrder
import SStock.Sharing.Messages
import SStock.Sharing.Network
import SStock.Framework.KeyOrder
import SStock.Sharing.Feed
import SStock.Search.SearchUrl
import SStock.Search.SearchReply
import SStock.Portfolio.QuoteReply
import SStock.Sharing.UserRecord
import SStock.Framework.Decimal
import SStock.Framework.Gregorian
import SStock.Framework.WeekYear
import SStock.Portfolio.StartDate
import SStock.Framework.Simulation
import SStock.Portfolio.CrashFree
import SStock.Portfolio.Orderly
import SStock.Portfolio.Settling
import SStock.Portfolio.Requests
import SStock.Portfolio.ExactlyOnce
import SStock.Portfolio.Intent
import SStock.Portfolio.CellByCell
import SStock.Portfolio.StatsScreen
import SStock.Portfolio.Actions
import SStock.Model.Records
import SStock.Framework.Restart
import SStock.Portfolio.Provenance
import SStock.Portfolio.Sessions
import SStock.Portfolio.RequestUrls
import SStock.Search.OwnReply
import SStock.Portfolio.RefreshCycle
import SStock.Framework.SharedLog
import SStock.Sharing.FeedScreen
import SStock.Sharing.SendAlert
import SStock.Sharing.Devices
import SStock.Sharing.Recommendations
import SStock.Sharing.Refinement
import SStock.Sharing.UserScreens
