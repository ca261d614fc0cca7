import Transclusion.CommandLine.Run
import Transclusion.Directive.Parse
import Transclusion.Expansion
import Transclusion.FrontMatter.Search
import Transclusion.Main
import Transclusion.Project
import Transclusion.SourceTree
import Transclusion.Stage
import Transclusion.Proofs.CommandLine.Check
import Transclusion.Proofs.Directive.Positions
import Transclusion.Proofs.Directive.Spans
import Transclusion.Proofs.Directive.Walk
import Transclusion.Proofs.Expansion.Attribution
import Transclusion.Proofs.Expansion.Children
import Transclusion.Proofs.Expansion.Comments
import Transclusion.Proofs.Expansion.Compositional
import Transclusion.Proofs.Expansion.Containment
import Transclusion.Proofs.Expansion.Cycles
import Transclusion.Proofs.Expansion.Dependencies
import Transclusion.Proofs.Expansion.Folder
import Transclusion.Proofs.Expansion.Gathering
import Transclusion.Proofs.Expansion.Resolved
import Transclusion.Proofs.FileTree.Listing
import Transclusion.Proofs.Fragment
import Transclusion.Proofs.FrontMatter.Lines
import Transclusion.Proofs.Glob.Expression
import Transclusion.Proofs.Key
import Transclusion.Proofs.Key.Traversal
import Transclusion.Proofs.Mapping
import Transclusion.Proofs.MetadataTree
import Transclusion.Proofs.MetadataTree.Apart
import Transclusion.Proofs.Permalink.Retarget
import Transclusion.Proofs.Resolver.Members
import Transclusion.Proofs.SourceTree
import Transclusion.Proofs.SourceTree.Keeping
import Transclusion.Proofs.Text.Position
import Transclusion.Proofs.Stage.Fallback
import Transclusion.Proofs.Stage.Metadata
import Transclusion.Proofs.Stage.Policies
import Transclusion.Proofs.Stage.Rendering
import Transclusion.Proofs.Stage.Transaction
