import Xeibe.Core.Splitter.Cut
import Xeibe.Reproject.Grid.Answers
import Xeibe.Core.Parallel.Bound
import Xeibe.Core.Parallel.Rest
import Xeibe.Core.DecodeAhead.Bound
import Xeibe.Core.RandomReader
import Xeibe.Arrow.Exact
import Xeibe.Arrow.Located
import Xeibe.Schema.Pattern
import Xeibe.Schema.ColumnNames
import Xeibe.Geom.WkbRobust
import Xeibe.Arrow.GeometryColumn
import Xeibe.Schema.Sampled
import Xeibe.Geom.CurveFinish
import Xeibe.Wfs.ReadAhead
import Xeibe.Wfs.Repeats
import Xeibe.Arrow.SavedAxis
import Xeibe.Geom.CrsWritten
import Xeibe.Geom.Gathered
import Xeibe.Reproject.Select.Search.Ranking
import Xeibe.Wfs.Counted
import Xeibe.Reproject.Equivalent.Lopsided
import Xeibe.Reproject.Grid.Placed
import Xeibe.Reproject.Select.Preferred
import Xeibe.Reproject.Select.Search.Composed
import Xeibe.Reproject.Select.Search.Inverted
import Xeibe.Reproject.Angles.Written
import Xeibe.Reproject.Antimeridian
import Xeibe.Reproject.CoordinateSystem
import Xeibe.Reproject.Grid.Encoded
import Xeibe.Reproject.Grid.Loaded
import Xeibe.Reproject.Grid.Predictors
import Xeibe.Reproject.Requoted
import Xeibe.Schema.Values.Parted
import Xeibe.Reproject.Tin.Found
import Xeibe.Reproject.Wkt.Accepted
import Xeibe.Arrow.Routed
import Xeibe.Core.Splitter.Ahead
