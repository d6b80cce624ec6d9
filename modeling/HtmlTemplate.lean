import HtmlTemplate.Draft
import HtmlTemplate.Html.Delivery
import HtmlTemplate.Preprocess
import HtmlTemplate.Proofs.Attention
import HtmlTemplate.Proofs.Bare
import HtmlTemplate.Proofs.Bodies
import HtmlTemplate.Proofs.Boundaries
import HtmlTemplate.Proofs.Chunks
import HtmlTemplate.Proofs.Consumes
import HtmlTemplate.Proofs.Containment
import HtmlTemplate.Proofs.Document
import HtmlTemplate.Proofs.Grammar
import HtmlTemplate.Proofs.Lockstep
import HtmlTemplate.Proofs.Markers
import HtmlTemplate.Proofs.Moment
import HtmlTemplate.Proofs.Moves
import HtmlTemplate.Proofs.RoundTrip
import HtmlTemplate.Proofs.Siblings
import HtmlTemplate.Proofs.Standalone
import HtmlTemplate.Proofs.Tiling
import HtmlTemplate.Tree.Outline
import HtmlTemplate.Tree.StackSession
import HtmlTemplate.Proofs.Codemod
import HtmlTemplate.Proofs.Coordinates
import HtmlTemplate.Proofs.ParseErrors
import HtmlTemplate.Proofs.Placement
import HtmlTemplate.Proofs.Slices
import HtmlTemplate.Proofs.Commented
import HtmlTemplate.Proofs.Dashes
import HtmlTemplate.Proofs.Heads
import HtmlTemplate.Proofs.Attributes
import HtmlTemplate.Proofs.RawText
import HtmlTemplate.Proofs.OpenTags
import HtmlTemplate.Proofs.Steady
import HtmlTemplate.Proofs.KeptNames
import HtmlTemplate.Proofs.Decoding
import HtmlTemplate.Proofs.Chains
import HtmlTemplate.Proofs.AttributeNames
import HtmlTemplate.Proofs.BlockParams
import HtmlTemplate.Proofs.AttributeEnds
import HtmlTemplate.Proofs.RawRuns
import HtmlTemplate.Proofs.Chronology
import HtmlTemplate.Proofs.Callees
import HtmlTemplate.Proofs.AttributeValues
import HtmlTemplate.Proofs.Numerals
import HtmlTemplate.Proofs.DashedComments
import HtmlTemplate.Proofs.Displays
import HtmlTemplate.Proofs.StackRuns
import HtmlTemplate.Proofs.TrimFlags
import HtmlTemplate.Proofs.Rounds
