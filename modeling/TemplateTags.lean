import TemplateTags.Compiler.Journal
import TemplateTags.Config.Document
import TemplateTags.Proofs.Group
import TemplateTags.Proofs.Tag.Grammar
import TemplateTags.Proofs.Tag.Soundness
import TemplateTags.Proofs.Tag.Completeness
import TemplateTags.Proofs.Tag.Recognition
import TemplateTags.Proofs.Document
import TemplateTags.Proofs.Compiler.Pieces
import TemplateTags.Proofs.Attribute.Run
import TemplateTags.Proofs.Attribute.Angle
import TemplateTags.Proofs.Compiler.Output
import TemplateTags.Proofs.Compiler.Stages
import TemplateTags.Proofs.Attribute.Replace
import TemplateTags.Proofs.Attribute.Spelling
import TemplateTags.Proofs.Attribute.Canonical
import TemplateTags.Proofs.Attribute.RoundTrip
import TemplateTags.Proofs.Document.Tiling
import TemplateTags.Proofs.Component.Candidates
import TemplateTags.Proofs.Attribute.Listing
import TemplateTags.Proofs.Compiler.Sanitizing
import TemplateTags.Proofs.Attribute.Literal
import TemplateTags.Proofs.Compiler.SlotName
import TemplateTags.Proofs.Config.Document
import TemplateTags.Proofs.Attribute.BagEcho
import TemplateTags.Proofs.Attribute.HelperCall
import TemplateTags.Proofs.Group.Counter
import TemplateTags.Proofs.Document.Pairing
import TemplateTags.Proofs.Compiler.SlotLiteral
import TemplateTags.Proofs.Component.Data
import TemplateTags.Proofs.Attribute.QuotedValues
import TemplateTags.Proofs.Attribute.NormalForm
import TemplateTags.Proofs.Echo.Printing
import TemplateTags.Proofs.Compiler.Places
import TemplateTags.Proofs.Text.Words
import TemplateTags.Proofs.Attribute.History
import TemplateTags.Proofs.Attribute.Tokens
