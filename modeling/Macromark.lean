import Macromark.Main
import Macromark.Proofs.Anchors
import Macromark.Proofs.Assembly.Akin
import Macromark.Proofs.Assembly.Attribution
import Macromark.Proofs.Assembly.Chunks
import Macromark.Proofs.Assembly.Composition
import Macromark.Proofs.Assembly.Content
import Macromark.Proofs.Assembly.Numbers
import Macromark.Proofs.Assembly.Worklist
import Macromark.Proofs.Command.Run
import Macromark.Proofs.Enclosing
import Macromark.Proofs.Html.Balance
import Macromark.Proofs.Html.Titles
import Macromark.Proofs.Identifier
import Macromark.Proofs.Inflection.Inverse
import Macromark.Proofs.Innermost
import Macromark.Proofs.Lexeme
import Macromark.Proofs.Marks
import Macromark.Proofs.Outline.Contents
import Macromark.Proofs.Outline.Linking
import Macromark.Proofs.Paragraphs
import Macromark.Proofs.Places
import Macromark.Proofs.Project.Lineage
import Macromark.Proofs.Project.Reachability
import Macromark.Proofs.Project.Reordering
import Macromark.Proofs.Selection.Ranking
import Macromark.Proofs.Store.Ledger
import Macromark.Proofs.Text.LineMap
import Macromark.Proofs.Tree.Acceptance
import Macromark.Proofs.Tree.Lossless
import Macromark.Proofs.Views
import Macromark.Tree.Expectation
