import OrbitGraph.Sync.ModuleNames
import OrbitGraph.Sync.Chunks
import OrbitGraph.Sync.Isolation
import OrbitGraph.Coalesce.Database
import OrbitGraph.History.Contracts
import OrbitGraph.Clean.Safety
import OrbitGraph.Clean.Exclusion
import OrbitGraph.Watcher.Loop
import OrbitGraph.Cache.Complete
import OrbitGraph.Changes.Scope
import OrbitGraph.Analysis.Accounting
import OrbitGraph.CodeIndex.Ownership
import OrbitGraph.History.Labels
import OrbitGraph.History.Attribution
import OrbitGraph.Sync.Scan
import OrbitGraph.Sync.FullText
import OrbitGraph.DbPath.Branches
import OrbitGraph.Recommend.TargetCache
import OrbitGraph.Sync.ParentLinks
import OrbitGraph.Sync.Reexport
import OrbitGraph.Sync.StoredRef
import OrbitGraph.Evaluation.HeldOut
import OrbitGraph.Recommend.Associations
import OrbitGraph.Recommend.Lineage
import OrbitGraph.History.RemoteIdentity
import OrbitGraph.Recommend.TaskQuery
import OrbitGraph.History.RedactionBytes
import OrbitGraph.History.UrlPasswords
import OrbitGraph.Query.PrintedSelectors
import OrbitGraph.Query.Snippets
import OrbitGraph.Sync.MemberChoice
import OrbitGraph.History.Walks
import OrbitGraph.History.CivilDates
import OrbitGraph.Analysis.ByteLimit
import OrbitGraph.Changes.Ambiguity
import OrbitGraph.Changes.BodyRenames
import OrbitGraph.Evidence.Traversal
import OrbitGraph.Extract.MarkdownFences
import OrbitGraph.Extract.Dedup
import OrbitGraph.Cache.Retention
import OrbitGraph.Snapshot.Faithful
import OrbitGraph.Extract.DottedCalls
import OrbitGraph.Plugin.Bound
import OrbitGraph.Extract.JsonKeyLines
import OrbitGraph.Plugin.Resync
import OrbitGraph.Output.Layout
import OrbitGraph.Extract.Rust.Flattening
import OrbitGraph.Extract.Python.ClickNames
