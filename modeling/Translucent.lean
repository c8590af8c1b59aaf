import Translucent.Plugin
import Translucent.Visitor
import Translucent.Proofs.Stylesheet.Edit
import Translucent.Proofs.Stylesheet.Print
import Translucent.Proofs.Stylesheet.Reread
import Translucent.Proofs.Stylesheet.Expand
import Translucent.Proofs.Stylesheet.Levels
import Translucent.Proofs.Stylesheet.Depth
import Translucent.Proofs.Stylesheet.Beyond
import Translucent.Proofs.Stylesheet.Visitor
import Translucent.Proofs.Value.Spans
import Translucent.Proofs.Value.Again
import Translucent.Proofs.Value.Tokens
import Translucent.Proofs.Value.Parts
import Translucent.Proofs.Value.Spellings
import Translucent.Proofs.Value.Alone
import Translucent.Proofs.Value.Beyond
import Translucent.Proofs.Value.Found
import Translucent.Proofs.Color.Hex
import Translucent.Proofs.Stylesheet.Importance
import Translucent.Proofs.Color.Meaning
import Translucent.Proofs.Json.Options
