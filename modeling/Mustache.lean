import Mustache.CommandLine
import Mustache.Host.Scripted
import Mustache.Main
import Mustache.Proofs.Engine.Inlining
import Mustache.Proofs.Engine.Reuse
import Mustache.Proofs.Engine.OwnDelimiters
import Mustache.Proofs.Engine.Transparency
import Mustache.Value.Datum
import Mustache.Proofs.Scanner.Run
import Mustache.Proofs.Text.Words
import Mustache.Proofs.Scanner.Grammar
import Mustache.Proofs.Scanner.Places
import Mustache.Proofs.Tree.Excerpt
import Mustache.Proofs.Tree.Balance
import Mustache.Proofs.Tree.Document
import Mustache.Proofs.Scanner.Lines
import Mustache.Proofs.Tree.Lines
import Mustache.Proofs.Template.Composition
import Mustache.Proofs.Scanner.Tiling
import Mustache.Proofs.Cache.Provenance
import Mustache.Proofs.Tree.Bytes
import Mustache.Proofs.Engine.Termination
import Mustache.Proofs.Render.Opacity
import Mustache.Proofs.Render.Misses
import Mustache.Proofs.Engine.Repetition
import Mustache.Proofs.Engine.EntryPoints
import Mustache.Proofs.Tree.Trimming
import Mustache.Proofs.Template.Depth
import Mustache.Proofs.Render.Invisible
import Mustache.Proofs.Render.Escaping
import Mustache.Proofs.Cache.Clearing
import Mustache.Proofs.Cache.Compilations
import Mustache.Proofs.Scanner.Printing
import Mustache.Proofs.Scanner.Restart
import Mustache.Proofs.Render.Paths
import Mustache.Proofs.CommandLine.Trees
import Mustache.Proofs.Cache.Naming
import Mustache.Proofs.Value.Equality
import Mustache.Proofs.Render.Indentation
import Mustache.Proofs.Template.NormalForm
