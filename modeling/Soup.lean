import Soup.Bundler.LoadClasses
import Soup.Bundler.PartOrder
import Soup.Bundler.ReadOrder
import Soup.Collections.Association
import Soup.Collections.BitSetRuns
import Soup.Collections.Priority
import Soup.Collections.Queue
import Soup.Cron.Format
import Soup.ExeFormat.Cuts
import Soup.Hir.DisjointSet
import Soup.Hir.Frontier
import Soup.Http2.Acknowledged
import Soup.Install.Merged
import Soup.Install.Nesting
import Soup.Install.Rebound
import Soup.Install.SplitSides
import Soup.Lint.FixLoop
import Soup.Paths.LongestMany
import Soup.Paths.NormalizeString
import Soup.Renamer.MinifyRenamer
import Soup.Resolver.Contained
import Soup.Sema.Imports
import Soup.Sema.Interned
import Soup.Semver.Coerce
import Soup.Semver.Desugar
import Soup.Semver.Inc
import Soup.Semver.StringPool
import Soup.Semver.Union
import Soup.Shell.Expanded
import Soup.SourceMap.Emit
import Soup.SourceMap.Find
import Soup.SourceMap.Join
import Soup.SourceMap.Pieces
import Soup.SourceMap.RawSafe
import Soup.SourceMap.Trackers
import Soup.Ssa.Dominators
import Soup.Tar.Chunks
import Soup.Trim.Chain
import Soup.Trim.IcuRemoved
