import Align.HashStream
import Align.JsonEscape
import Align.JsonRecognize
import Align.JsonSequential
import Align.InterfaceCanonical
import Align.CsvGrammar
import Align.FrameJoin
import Align.GroupAgg
import Align.ColumnarRoundTrip
import Align.Random
import Align.PathsParts
import Align.HttpResponseRoundTrip
import Align.S3Requests
import Align.LineReader
import Align.Auth
import Align.HttpStreamWrite
import Align.TaskGroup
import Align.Migrations
import Align.Cookies
import Align.GroupStr
import Align.Query
import Align.SourceShape
