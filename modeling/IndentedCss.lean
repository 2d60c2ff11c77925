import IndentedCss.Construct
import IndentedCss.Convert
import IndentedCss.Outline.Ancestry
import IndentedCss.Outline.Basic
import IndentedCss.Outline.Survey
import IndentedCss.Selector
import IndentedCss.Source.Lexeme
import IndentedCss.Source.Location
import IndentedCss.Text.Basic
import IndentedCss.Text.Enclosure
import IndentedCss.Text.Quoted
import IndentedCss.Proofs.Construct.Agreement
import IndentedCss.Proofs.Construct.Balance
import IndentedCss.Proofs.Construct.Concatenation
import IndentedCss.Proofs.Construct.Conservation
import IndentedCss.Proofs.Construct.Extension
import IndentedCss.Proofs.Construct.Feeds
import IndentedCss.Proofs.Construct.Fusing
import IndentedCss.Proofs.Construct.Interruption
import IndentedCss.Proofs.Construct.Likeness
import IndentedCss.Proofs.Construct.Moving
import IndentedCss.Proofs.Construct.Nesting
import IndentedCss.Proofs.Construct.Offsets
import IndentedCss.Proofs.Construct.Opacity
import IndentedCss.Proofs.Construct.Order
import IndentedCss.Proofs.Construct.Places
import IndentedCss.Proofs.Construct.Printing
import IndentedCss.Proofs.Construct.Reprinting
import IndentedCss.Proofs.Construct.Rereading
import IndentedCss.Proofs.Construct.Similarity
import IndentedCss.Proofs.Construct.Tracking
import IndentedCss.Proofs.Outline.Catalogue
import IndentedCss.Proofs.Outline.Coherence
import IndentedCss.Proofs.Outline.Contents
import IndentedCss.Proofs.Outline.Decoding
import IndentedCss.Proofs.Outline.Drafting
import IndentedCss.Proofs.Outline.Finding
import IndentedCss.Proofs.Outline.Frames
import IndentedCss.Proofs.Outline.Insertion
import IndentedCss.Proofs.Outline.Itinerary
import IndentedCss.Proofs.Outline.Listing
import IndentedCss.Proofs.Outline.Merging
import IndentedCss.Proofs.Outline.Paths
import IndentedCss.Proofs.Outline.Preorder
import IndentedCss.Proofs.Outline.Records
import IndentedCss.Proofs.Outline.Reopening
import IndentedCss.Proofs.Outline.Settling
import IndentedCss.Proofs.Outline.Shape
import IndentedCss.Proofs.Outline.Sieving
import IndentedCss.Proofs.Outline.Sighting
import IndentedCss.Proofs.Outline.Traversal
import IndentedCss.Proofs.Respacing
import IndentedCss.Proofs.Selector.Commas
import IndentedCss.Proofs.Selector.Escapes
import IndentedCss.Proofs.Selector.Grammar
import IndentedCss.Proofs.Selector.Labels
import IndentedCss.Proofs.Selector.Printing
import IndentedCss.Proofs.Selector.Shape
import IndentedCss.Proofs.Selector.Spacing
import IndentedCss.Proofs.Selector.Standing
import IndentedCss.Proofs.Selector.Stretches
import IndentedCss.Proofs.Setting
import IndentedCss.Proofs.Source.Bodies
import IndentedCss.Proofs.Source.Braces
import IndentedCss.Proofs.Source.Keeping
import IndentedCss.Proofs.Source.Locating
import IndentedCss.Proofs.Source.Mode
import IndentedCss.Proofs.Source.Opening
import IndentedCss.Proofs.Source.Roles
import IndentedCss.Proofs.Source.Spelling
import IndentedCss.Proofs.Source.Tracking
import IndentedCss.Proofs.Text.Collapsing
import IndentedCss.Proofs.Text.Feeds
import IndentedCss.Proofs.Text.Opening
import IndentedCss.Proofs.Text.Quotes
import IndentedCss.Proofs.Text.Spacing
import IndentedCss.Proofs.Text.Splitting
import IndentedCss.Proofs.Text.Trim
