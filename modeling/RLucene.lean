import RLucene.Codecs.Lucene90.DocValues.Correct
import RLucene.Index.DocumentsWriterFlushQueue
import RLucene.Index.IndexFileDeleterCorrect
import RLucene.Index.MultiSorterCorrect
import RLucene.Search.BooleanScorerCalls
import RLucene.Util.Bkd.LeafBounds
import RLucene.Util.Compress.LowercaseAsciiCorrect
import RLucene.Codecs.Lucene101.PForUtilCorrect
import RLucene.Codecs.Lucene101.PostingsUtil
import RLucene.Codecs.Lucene101.IntBlockTermState
import RLucene.Codecs.CompetitiveImpactAccumulator
import RLucene.Util.Packed.BulkOperation
import RLucene.Util.Automation.OperationsCorrect
import RLucene.Util.Packed.DirectMonotonicSearch
import RLucene.Codecs.Lucene90.Compressing.TLong
