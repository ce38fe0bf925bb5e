import StaticHttp.Main
import StaticHttp.Proofs.Reach
import StaticHttp.Proofs.HeadEnd
import StaticHttp.Proofs.Scan
import StaticHttp.Proofs.RequestLine
import StaticHttp.Proofs.HeaderLines
import StaticHttp.Proofs.Headers
import StaticHttp.Proofs.Stages
import StaticHttp.Proofs.Resumption
import StaticHttp.Proofs.Ledger
import StaticHttp.Proofs.Offset
import StaticHttp.Proofs.Accounting
import StaticHttp.Proofs.Deliveries
import StaticHttp.Proofs.Sending
import StaticHttp.Proofs.Outlook
import StaticHttp.Proofs.Segmentation
import StaticHttp.Proofs.Pipelining
import StaticHttp.Proofs.Transfer
import StaticHttp.Proofs.Lookup
import StaticHttp.Proofs.Numerals
import StaticHttp.Proofs.Client
import StaticHttp.Proofs.Kept
import StaticHttp.Proofs.HeadText
import StaticHttp.Proofs.Delimited
import StaticHttp.Proofs.Parts
import StaticHttp.Proofs.Policy
import StaticHttp.Proofs.LineText
import StaticHttp.Proofs.HeaderText
import StaticHttp.Proofs.HeadMeaning
import StaticHttp.Proofs.Room
import StaticHttp.Proofs.Lifetimes
import StaticHttp.Proofs.Checked
import StaticHttp.Proofs.HeadLimit
import StaticHttp.Proofs.Unfailing
import StaticHttp.Proofs.AnySite
import StaticHttp.Proofs.Utf8Text
import StaticHttp.Proofs.Confined
import StaticHttp.Proofs.TargetText
import StaticHttp.Proofs.Determined
import StaticHttp.Proofs.MediaType
import StaticHttp.Proofs.LineGrammar
import StaticHttp.Proofs.LinePieces
import StaticHttp.Proofs.HeaderGrammar
import StaticHttp.Proofs.VersionEcho
import StaticHttp.Proofs.FieldPieces
import StaticHttp.Proofs.TargetParts
import StaticHttp.Proofs.HeadLines
import StaticHttp.Proofs.Refusal
import StaticHttp.Proofs.Rewound
import StaticHttp.Proofs.Omission
import StaticHttp.Proofs.Chains
import StaticHttp.Proofs.AnyCase
import StaticHttp.Proofs.PlainQueue
import StaticHttp.Proofs.AnnouncedLength
