import Infed.Codd.Arithmetic
import Infed.Codd.Identity
import Infed.Codd.Membership
import Infed.Codd.Resolution
import Infed.Codd.Strict
import Infed.Exist.Faithful
import Infed.Exist.Nested
import Infed.Exist.Values
import Infed.Intersection
import Infed.Marked.Answers
import Infed.Marked.Complete
import Infed.Marked.Order
import Infed.Marked.Sets
import Infed.Self.Outer
import Infed.Split.Resolutions
