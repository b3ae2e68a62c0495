import Procenv.Proof.Layout
import Procenv.Proof.Json
import Procenv.Text.Xml
import Procenv.Proof.Xml
import Procenv.Proof.TextFormat
import Procenv.Data.Ring
import Procenv.Proof.PrList
import Procenv.Proof.Crumb
import Procenv.Model.Pstring
import Procenv.Proof.Compress
import Procenv.Proof.CrumbOutput
import Procenv.Proof.Unescape
import Procenv.Model.Main
import Procenv.Model.MainMemory
import Procenv.Data.Outcome
import Procenv.Data.Offside
import Procenv.Proof.Indent
import Procenv.Proof.MainIndent
import Procenv.Proof.Finish
import Procenv.Text.Depth
import Procenv.Proof.MainDocument
import Procenv.Proof.MainMemory
import Procenv.Data.Interact
import Procenv.Model.System
import Procenv.Model.Generic
import Procenv.Model.Linux
import Procenv.Model.Display
import Procenv.Proof.Nesting
import Procenv.Proof.Display
import Procenv.Model.Process
import Procenv.Proof.Options
import Procenv.Proof.Outline
import Procenv.Proof.Process
import Procenv.Proof.ReadText
import Procenv.Proof.Reference
import Procenv.Proof.Report
import Procenv.Data.Buffer
import Procenv.Model.Append
import Procenv.Proof.Append
import Procenv.Proof.Format
import Procenv.Proof.Length
import Procenv.Proof.Lossless
import Procenv.Proof.PrOps
import Procenv.Proof.Size
import Procenv.Proof.Version
import Procenv.Proof.Lookup
import Procenv.Proof.Affinity
import Procenv.Data.Insertion
import Procenv.Proof.Sorted
import Procenv.Data.File
import Procenv.Model.OutputFile
import Procenv.Proof.OutputFile
import Procenv.Model.Translate
import Procenv.Proof.Translate
import Procenv.Model.InPlace
import Procenv.Proof.InPlace
import Procenv.Proof.Concat
import Procenv.Data.Chain
import Procenv.Model.Network
import Procenv.Proof.Network
import Procenv.Proof.BlankLines
import Procenv.Proof.Mac
import Procenv.Data.Lineage
import Procenv.Model.Ancestry
import Procenv.Proof.Ancestry
import Procenv.Model.Signals
import Procenv.Proof.Signals
import Procenv.Proof.Runs
import Procenv.Proof.Strsep
import Procenv.Proof.Cgroups
import Procenv.Model.Environ
import Procenv.Proof.Environ
import Procenv.Model.Mounts
import Procenv.Proof.Mounts
import Procenv.Proof.MountOpts
import Procenv.Model.Multibyte
import Procenv.Proof.Multibyte
import Procenv.Model.Paths
import Procenv.Proof.Paths
import Procenv.Model.ExecArgs
import Procenv.Proof.ExecArgs
import Procenv.Proof.Counted
import Procenv.Model.Cpuset
import Procenv.Proof.Cpuset
import Procenv.Model.SplitFields
import Procenv.Proof.SplitFields
import Procenv.Data.Lockstep
import Procenv.Model.Document
import Procenv.Proof.Document
import Procenv.Model.CrumbMemory
import Procenv.Proof.CrumbMemory
import Procenv.Proof.LinuxAncestry
import Procenv.Model.Libs
import Procenv.Proof.Libs
import Procenv.Model.Namespaces
import Procenv.Proof.Namespaces
import Procenv.Proof.Sections
import Procenv.Proof.Program
import Procenv.Proof.Inputs
