import ObjectGraph.Configuration.Scope
import ObjectGraph.Main
import ObjectGraph.Proofs.Addressed
import ObjectGraph.Proofs.Aliases
import ObjectGraph.Proofs.Assignment
import ObjectGraph.Proofs.Completion.Pass
import ObjectGraph.Proofs.Conversions
import ObjectGraph.Proofs.Deferring.Delivery
import ObjectGraph.Proofs.Depth.Building
import ObjectGraph.Proofs.Depth.Recursion
import ObjectGraph.Proofs.Early
import ObjectGraph.Proofs.Excerpt
import ObjectGraph.Proofs.Expansion
import ObjectGraph.Proofs.Grammar.Stopped
import ObjectGraph.Proofs.Integers
import ObjectGraph.Proofs.KeyOrder
import ObjectGraph.Proofs.Normal.Ancestry
import ObjectGraph.Proofs.Normal.Bindings
import ObjectGraph.Proofs.Normal.Mixins
import ObjectGraph.Proofs.Normal.Termination
import ObjectGraph.Proofs.Projecting
import ObjectGraph.Proofs.Rendering
import ObjectGraph.Proofs.Retention
import ObjectGraph.Proofs.Strict.Faithful
import ObjectGraph.Proofs.Telling.Products
import ObjectGraph.Proofs.Walking
import ObjectGraph.Proofs.Wired.Cycles
import ObjectGraph.Proofs.Wired.Renaming
import ObjectGraph.Sample.Shelf
import ObjectGraph.Uri.Data
