import WebFonts.Command.Store
import WebFonts.Main
import WebFonts.Proofs.Css.Outline
import WebFonts.Proofs.Injection.Idempotence
import WebFonts.Proofs.Injection.Integrity
import WebFonts.Proofs.SourceMap.Lookup
import WebFonts.Proofs.Css.Site
import WebFonts.Proofs.Css.Spelling
import WebFonts.Proofs.Css.Token
import WebFonts.Proofs.Injection.Failure
import WebFonts.Proofs.Injection.Unread
import WebFonts.Proofs.Injection.Discovery
import WebFonts.Proofs.Injection.Placement
import WebFonts.Proofs.Css.Concatenation
import WebFonts.Proofs.Css.Excerpt
import WebFonts.Proofs.Css.Nesting
import WebFonts.Proofs.Css.Walk
import WebFonts.Proofs.Css.Contained
import WebFonts.Proofs.Css.Written
import WebFonts.Proofs.Face.Contained
import WebFonts.Proofs.Face.RoundTrip
import WebFonts.Proofs.Injection.QuotedNames
import WebFonts.Proofs.Json.Configuration
import WebFonts.Proofs.SourceMap.Json
import WebFonts.Proofs.Command.Maps
import WebFonts.Proofs.Css.Brackets
import WebFonts.Proofs.Css.Tokenizing
import WebFonts.Proofs.Face.Listing
import WebFonts.Proofs.Injection.FamilyList
import WebFonts.Proofs.Css.Important
import WebFonts.Proofs.Css.Recovery
import WebFonts.Proofs.SourceMap.Exact
import WebFonts.Proofs.Config.Catalogue
import WebFonts.Proofs.Face.Shorthand
import WebFonts.Proofs.Css.Descent
