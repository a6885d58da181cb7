import MnoGoSearch.Blob.Bdicti
import MnoGoSearch.Blob.CoordCode
import MnoGoSearch.Blob.DeltaFormats
import MnoGoSearch.Blob.Formats
import MnoGoSearch.Blob.Header
import MnoGoSearch.Blob.LiveIndex
import MnoGoSearch.Blob.Pack
import MnoGoSearch.Blob.PostingList
import MnoGoSearch.Blob.RangeFormat
import MnoGoSearch.Blob.RawBlob
import MnoGoSearch.Blob.RoundTrip
import MnoGoSearch.Blob.Unpack
import MnoGoSearch.Blob.UnpackBounds
import MnoGoSearch.Blob.UnpackLimit
import MnoGoSearch.Blob.UnpackRecords
import MnoGoSearch.Crawler.ThreadMain
import MnoGoSearch.Dict.Agree
import MnoGoSearch.Dict.AlwaysFound
import MnoGoSearch.Dict.Multi
import MnoGoSearch.Dict.Single
import MnoGoSearch.Fuzzy.ComplexRight
import MnoGoSearch.Fuzzy.ComplexSynonym
import MnoGoSearch.Fuzzy.Hyphens
import MnoGoSearch.Fuzzy.SynonymFind
import MnoGoSearch.Highlight.Highlight
import MnoGoSearch.Hrefs.HrefList
import MnoGoSearch.Hrefs.LinkSet
import MnoGoSearch.Html.Token
import MnoGoSearch.Http.Base64
import MnoGoSearch.Http.Cookies
import MnoGoSearch.Http.DocBuffer
import MnoGoSearch.Http.TransferDecode
import MnoGoSearch.Lib.BinarySearch
import MnoGoSearch.Lib.BitString
import MnoGoSearch.Lib.Buffer
import MnoGoSearch.Lib.Compaction
import MnoGoSearch.Lib.FixedWidth
import MnoGoSearch.Lib.FloatRounding
import MnoGoSearch.Lib.Keys
import MnoGoSearch.Lib.LinearProbing
import MnoGoSearch.Lib.Machine
import MnoGoSearch.Lib.OpenAddressing
import MnoGoSearch.Lib.Precedence
import MnoGoSearch.Lib.PrefixCode
import MnoGoSearch.Lib.RunSums
import MnoGoSearch.Lib.Runs
import MnoGoSearch.Lib.SegmentStack
import MnoGoSearch.Lib.Segments
import MnoGoSearch.Lib.Selection
import MnoGoSearch.Lib.ShellSort
import MnoGoSearch.Lib.SortProcedure
import MnoGoSearch.Lib.Sorting
import MnoGoSearch.Lib.SqlCondition
import MnoGoSearch.Lib.Tapes
import MnoGoSearch.Lib.Threads
import MnoGoSearch.Lib.Wildcard
import MnoGoSearch.Lib.Written
import MnoGoSearch.Limits.UrlIdList
import MnoGoSearch.Match.MatchExec
import MnoGoSearch.Match.Wild
import MnoGoSearch.Nntp.Client
import MnoGoSearch.Nntp.Dialogue
import MnoGoSearch.Query.Boolean
import MnoGoSearch.Query.ItemCopy
import MnoGoSearch.Query.ItemList
import MnoGoSearch.Query.ParsedWords
import MnoGoSearch.Query.Phrases
import MnoGoSearch.Query.WordMask
import MnoGoSearch.Result.GroupBySite
import MnoGoSearch.Result.Join
import MnoGoSearch.Result.Pages
import MnoGoSearch.Result.PatternOrder
import MnoGoSearch.Result.ShortPage
import MnoGoSearch.Result.SiteRank
import MnoGoSearch.Result.SortByPattern
import MnoGoSearch.Robots.Records
import MnoGoSearch.Rtf.Document
import MnoGoSearch.Score.AllWords
import MnoGoSearch.Score.Document
import MnoGoSearch.Score.MergeCoords
import MnoGoSearch.Score.MultiWord
import MnoGoSearch.Score.ParsedQuery
import MnoGoSearch.Score.QuickSkip
import MnoGoSearch.Score.SectionCheck
import MnoGoSearch.Score.StopPhrases
import MnoGoSearch.Score.TopScores
import MnoGoSearch.Score.UserScore
import MnoGoSearch.Score.WordDistance
import MnoGoSearch.Score.WordStatistics
import MnoGoSearch.Sections.MergeSorted
import MnoGoSearch.Sections.MergeSorted1
import MnoGoSearch.Spell.SpellHash
import MnoGoSearch.Spell.SpellList
import MnoGoSearch.Sql.WhereInt
import MnoGoSearch.Template.Accepted
import MnoGoSearch.Template.Compile
import MnoGoSearch.Template.Escape
import MnoGoSearch.Template.Meaning
import MnoGoSearch.Template.Print
import MnoGoSearch.Template.Program
import MnoGoSearch.Template.Reading
import MnoGoSearch.Template.Text
import MnoGoSearch.Uconv.Conv
import MnoGoSearch.Uconv.Utf8
import MnoGoSearch.Url.Buffers
import MnoGoSearch.Url.Canonize
import MnoGoSearch.Url.DotSegments
import MnoGoSearch.Url.Idempotent
import MnoGoSearch.Url.NoHost
import MnoGoSearch.Url.Regular
import MnoGoSearch.Url.UrlPath
import MnoGoSearch.Utils.CgiQuery
import MnoGoSearch.Utils.Decimal
import MnoGoSearch.Utils.Zint4
import MnoGoSearch.Utils.Zint4Bounds
import MnoGoSearch.Vars.ReplaceLst
import MnoGoSearch.Vars.VarList
import MnoGoSearch.Words.SectionSize
import MnoGoSearch.Words.WordList
import MnoGoSearch.Spell.AffixFile
import MnoGoSearch.Spell.Stemming
import MnoGoSearch.Spell.Forms
import MnoGoSearch.Sql.Escape
import MnoGoSearch.Sql.ExecGeneric
import MnoGoSearch.Utils.Dstr
import MnoGoSearch.Sql.QueryCache
import MnoGoSearch.Lib.SqlTokens
import MnoGoSearch.Sql.WhereCondition
import MnoGoSearch.Sql.WhereSafe
import MnoGoSearch.Date.HttpDate
import MnoGoSearch.Date.Written
import MnoGoSearch.Date.Formats
import MnoGoSearch.Date.Exact
import MnoGoSearch.Sgml.Encode
import MnoGoSearch.Sgml.Exact
import MnoGoSearch.Sgml.UniUnescape
import MnoGoSearch.Idn.Punycode
import MnoGoSearch.Idn.HostName
import MnoGoSearch.Idn.RoundTrip
import MnoGoSearch.Excerpt.Slices
import MnoGoSearch.Excerpt.Exact
import MnoGoSearch.Template.Grammar
import MnoGoSearch.Template.ForLoop
import MnoGoSearch.Template.Limit
import MnoGoSearch.Xml.Parser
import MnoGoSearch.Xml.Reading
import MnoGoSearch.Xml.Safe
import MnoGoSearch.Xml.Nesting
import MnoGoSearch.Hrefs.DocPerSite
import MnoGoSearch.Http.GzipHeader
import MnoGoSearch.Message.Rfc1522
import MnoGoSearch.Message.Parser
import MnoGoSearch.Message.ParserSafe
import MnoGoSearch.Sgml.References
import MnoGoSearch.Hrefs.StoredAgain
import MnoGoSearch.Blob.CoordCodec
import MnoGoSearch.Blob.UnpackRecID
import MnoGoSearch.Blob.WordPairs
import MnoGoSearch.Match.MatchApply
import MnoGoSearch.Segment.Chinese
import MnoGoSearch.Segment.Memory
import MnoGoSearch.Nntp.Retry
import MnoGoSearch.Http.DirListing
import MnoGoSearch.Message.Multipart
