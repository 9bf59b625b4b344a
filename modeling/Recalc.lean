import Recalc.Host
import Recalc.Proofs.Acyclic
import Recalc.Proofs.Aftermath
import Recalc.Proofs.Cached
import Recalc.Proofs.CircleReports
import Recalc.Proofs.CirclesMet
import Recalc.Proofs.Completeness
import Recalc.Proofs.Confluence
import Recalc.Proofs.DefinitionOrder
import Recalc.Proofs.Dependencies
import Recalc.Proofs.EventOrder
import Recalc.Proofs.FirstOrder
import Recalc.Proofs.Inlining
import Recalc.Proofs.Invalidation
import Recalc.Proofs.Lifetimes
import Recalc.Proofs.Recomputation
import Recalc.Proofs.Rendering
import Recalc.Proofs.Resolution
import Recalc.Proofs.Scanning
import Recalc.Proofs.Traversal
import Recalc.Proofs.WayBack
import Recalc.Proofs.Words
import Recalc.Solver.Summary
import Recalc.Workspace
