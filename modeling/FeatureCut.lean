import FeatureCut.Evaluate
import FeatureCut.Inspect
import FeatureCut.Settings
import FeatureCut.Proofs.Lossless
import FeatureCut.Proofs.Forest
import FeatureCut.Proofs.ForestEvaluation
import FeatureCut.Proofs.Seam
import FeatureCut.Proofs.Places
import FeatureCut.Proofs.Context
import FeatureCut.Proofs.LineCollapse
import FeatureCut.Proofs.Levels
import FeatureCut.Proofs.Concatenation
import FeatureCut.Proofs.DirectiveLine
import FeatureCut.Proofs.Selection
import FeatureCut.Proofs.Grammar
import FeatureCut.Proofs.Mentions
import FeatureCut.Proofs.Invariant
import FeatureCut.Proofs.Rejection
import FeatureCut.Proofs.Nesting
import FeatureCut.Proofs.Matching
import FeatureCut.Proofs.Checked
import FeatureCut.Proofs.CheckedReading
import FeatureCut.Proofs.Window
import FeatureCut.Proofs.Safety
import FeatureCut.Proofs.Scopes
import FeatureCut.Proofs.Subsequence
import FeatureCut.Proofs.Verbatim
import FeatureCut.Proofs.Lines
import FeatureCut.Proofs.Thinning
import FeatureCut.Proofs.Idempotence
import FeatureCut.Proofs.Positions
import FeatureCut.Proofs.Extents
import FeatureCut.Proofs.Diagnostics
import FeatureCut.Proofs.CutOff
import FeatureCut.Proofs.Unlimited
import FeatureCut.Proofs.CommentText
import FeatureCut.Proofs.HtmlClose
import FeatureCut.Proofs.InlineBody
import FeatureCut.Proofs.DocParts
import FeatureCut.Proofs.DocRegions
import FeatureCut.Proofs.BodyText
import FeatureCut.Proofs.DocComment
import FeatureCut.Proofs.FileExclusion
import FeatureCut.Proofs.LineComment
import FeatureCut.Proofs.CommentForms
import FeatureCut.Proofs.CommentReading
import FeatureCut.Proofs.PageText
import FeatureCut.Proofs.Header
import FeatureCut.Proofs.LicenseLine
import FeatureCut.Proofs.Configuration
import FeatureCut.Proofs.LiteralReach
