import CommCentral.Mork.YarnText
import CommCentral.Mork.ProbeMapRun
import CommCentral.Mork.RowUpdate
import CommCentral.MsgDB.SearchCacheUpdate
import CommCentral.MsgDB.ThreadRoot
import CommCentral.Imap.FlagAndUidCounts
import CommCentral.Imap.MsgDumpLoop
import CommCentral.Mork.TableReplay
import CommCentral.Imap.OfflinePlayback
import CommCentral.Mime.QPRoundTrip
import CommCentral.Jsmime.MimeNesting
import CommCentral.Search.BoolAgreement
import CommCentral.Gloda.LRURun
import CommCentral.Base.LineStreamRun
import CommCentral.Junk.TrainingHistory
import CommCentral.AddrBook.DelimitedRecords
import CommCentral.Compact.FinishCompact
import CommCentral.Compact.OfflineStoreEnds
import CommCentral.AddrBook.FilterMeaning
import CommCentral.AddrBook.LdifRecordsKept
import CommCentral.Mime.Base64Stripped
import CommCentral.News.DownloadRange
import CommCentral.Mime.UURoundTrip
import CommCentral.Mime.YEncRoundTrip
import CommCentral.Jsmime.ContinuationOrder
import CommCentral.Jsmime.PhraseLines
import CommCentral.Base.KeySetLastMember
import CommCentral.Base.KeySetFirstMissing
import CommCentral.Base.NewsrcQueries
import CommCentral.Search.ExpressionTree
import CommCentral.MsgDB.ThreadEnumerator
import CommCentral.MsgDB.KilledMessages
import CommCentral.MsgDB.NewSet
import CommCentral.MsgDB.Conversations
import CommCentral.View.SelectedRows
import CommCentral.View.AdjustedSelection
import CommCentral.Base.MsgLineBuffer
import CommCentral.Junk.TrainingRoundTrip
import CommCentral.Search.HeaderOccurrences
import CommCentral.Search.KeywordTable
import CommCentral.View.XFViewParents
import CommCentral.View.MoveThread
import CommCentral.View.ExpandedThread
import CommCentral.Gloda.CacheLoadUnify
import CommCentral.Imap.Namespaces
import CommCentral.Gloda.QueryCollection
import CommCentral.View.InsertOrder
import CommCentral.Calendar.ExpandedDates
import CommCentral.Imap.ParenGroupSkip
import CommCentral.Imap.OfflineKeywords
import CommCentral.AddrBook.LdifValues
import CommCentral.Pop3.RetrResponse
import CommCentral.Irc.Message
