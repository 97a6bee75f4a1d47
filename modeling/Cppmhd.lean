import Cppmhd.Router.Ambiguity
import Cppmhd.Router.Mount
import Cppmhd.Router.Shape
import Cppmhd.Router.Consumed
import Cppmhd.Router.Extension
import Cppmhd.Router.Redirect
import Cppmhd.Router.Missing
import Cppmhd.Http.Invariant
import Cppmhd.Http.Handler
import Cppmhd.Http.Location
import Cppmhd.Http.Form
import Cppmhd.Http.Response
import Cppmhd.Sync.Barrier
import Cppmhd.Http.Accounting
import Cppmhd.Router.Bindings
import Cppmhd.Router.Segments
import Cppmhd.Router.Normalised
import Cppmhd.Router.Queue
import Cppmhd.Router.WholeMatch
import Cppmhd.Router.Names
import Cppmhd.Http.Body
import Cppmhd.Http.ErrorPage
import Cppmhd.Http.Method
import Cppmhd.Server.App
import Cppmhd.Router.Types
import Cppmhd.Router.Split
import Cppmhd.Http.ContentType
import Cppmhd.Heap.Ownership
import Cppmhd.Http.Server
import Cppmhd.Runs.Refinement
import Cppmhd.Http.Objects
import Cppmhd.Http.DataController
import Cppmhd.Router.Tables
import Cppmhd.Runs.Fuel
import Cppmhd.Router.Nodes
import Cppmhd.Router.Pointers
import Cppmhd.Router.RawInsert
import Cppmhd.Router.BuildChild
import Cppmhd.Router.RawBuilder
import Cppmhd.Router.Lifetime
import Cppmhd.Router.Patterns
import Cppmhd.Http.WholeForm
import Cppmhd.Router.Owners
