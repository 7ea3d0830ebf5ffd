import BinderIdl.Py.Chars
import BinderIdl.Py.Text
import BinderIdl.Py.Number
import BinderIdl.Py.Dict
import BinderIdl.Py.Outcome
import BinderIdl.Graph.Cycles
import BinderIdl.Graph.Postorder
import BinderIdl.Graph.Visits
import BinderIdl.Wire.Buffer
import BinderIdl.Lex.Modes
import BinderIdl.Lex.Regex
import BinderIdl.Lex.CommandLine
import BinderIdl.Surface.Scan
import BinderIdl.Surface.Parse
import BinderIdl.Surface.Source
import BinderIdl.Surface.Dump
import BinderIdl.Surface.Diff
import BinderIdl.Interface.Definition
import BinderIdl.Interface.TypedVersions
import BinderIdl.Interface.Targets
import BinderIdl.Interface.CMake
import BinderIdl.Interface.Dependencies
import BinderIdl.Interface.Api
import BinderIdl.Interface.SourceGen
import BinderIdl.Interface.GenDeps
import BinderIdl.Interface.Commands
import BinderIdl.Interface.GenCpp
import BinderIdl.Interface.Libraries
import BinderIdl.Compiler.OverflowGuard
import BinderIdl.Build.Cache
import BinderIdl.Build.Switches
import BinderIdl.Ipc.Libbinder
import BinderIdl.Ipc.Parcelable
import BinderIdl.Ipc.TypedParcel
import BinderIdl.Ipc.ServiceManager
import BinderIdl.Ipc.Callbacks
import BinderIdl.Theorems.ReadBack
import BinderIdl.Theorems.Literals
import BinderIdl.Theorems.RoundTrip
import BinderIdl.Theorems.Changes
import BinderIdl.Theorems.Verdict
import BinderIdl.Theorems.Compose
import BinderIdl.Theorems.Contract
import BinderIdl.Theorems.EnumValues
import BinderIdl.Theorems.Linking
import BinderIdl.Theorems.Resolution
import BinderIdl.Theorems.Highest
import BinderIdl.Theorems.Acceptance
import BinderIdl.Theorems.FreezeCheck
import BinderIdl.Theorems.Naming
import BinderIdl.Theorems.Positions
import BinderIdl.Theorems.Handlers
import BinderIdl.Theorems.Integrity
import BinderIdl.Theorems.History
import BinderIdl.Theorems.Freezing
import BinderIdl.Theorems.Validation
import BinderIdl.Theorems.Updating
import BinderIdl.Theorems.Registry
import BinderIdl.Theorems.BuildOrder
import BinderIdl.Theorems.DependencyFile
import BinderIdl.Theorems.Generation
import BinderIdl.Theorems.Closure
import BinderIdl.Theorems.FreezeRecord
import BinderIdl.Theorems.Configure
import BinderIdl.Theorems.Lockstep
import BinderIdl.Theorems.StaleGraph
import BinderIdl.Theorems.Flags
import BinderIdl.Theorems.Arithmetic
import BinderIdl.Theorems.Comments
import BinderIdl.Theorems.Splitting
import BinderIdl.Theorems.NormalForm
import BinderIdl.Theorems.FileOrder
import BinderIdl.Theorems.LiteralEnums
import BinderIdl.Theorems.DiffErrors
import BinderIdl.Theorems.Loading
import BinderIdl.Theorems.Reuse
import BinderIdl.Theorems.Layout
import BinderIdl.Theorems.Declarations
import BinderIdl.Theorems.Headers
import BinderIdl.Theorems.Bodies
import BinderIdl.Theorems.Files
import BinderIdl.Theorems.Completeness
import BinderIdl.Theorems.Gaps
import BinderIdl.Theorems.Reformatting
import BinderIdl.Theorems.Tokens
import BinderIdl.Theorems.Members
import BinderIdl.Theorems.SourceVerdict
import BinderIdl.Theorems.Parcelables
import BinderIdl.Theorems.RemoteCalls
import BinderIdl.Theorems.Relays
import BinderIdl.Theorems.Callbacks
import BinderIdl.Theorems.Libraries
import BinderIdl.Theorems.Regeneration
