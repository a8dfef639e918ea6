import LenientMime.Base64.Coding
import LenientMime.Base64.Sieve
import LenientMime.MediaType.Json
import LenientMime.MediaType.Printer
import LenientMime.Message
import LenientMime.QuotedPrintable.Mender
import LenientMime.Settings.File
import LenientMime.Settings.Path
import LenientMime.Stream.Script
import LenientMime.Stream.Slice
import LenientMime.Proofs.EncodedWord.Scan
import LenientMime.Proofs.MediaType.RoundTrip
import LenientMime.Proofs.Multipart.Composition
import LenientMime.Proofs.Multipart.Nested
import LenientMime.Proofs.Multipart.Patience
import LenientMime.Proofs.Stream.Conservation
import LenientMime.Proofs.Multipart.Finished
import LenientMime.Proofs.Multipart.Recovery
import LenientMime.Proofs.MediaType.Essence
import LenientMime.Proofs.MediaType.Grammar
import LenientMime.Proofs.MediaType.Agreement
import LenientMime.Proofs.MediaType.Params
import LenientMime.Proofs.MediaType.Acceptance
import LenientMime.Proofs.MediaType.Cutting
import LenientMime.Proofs.MediaType.Result
import LenientMime.Proofs.MediaType.Failure
import LenientMime.Proofs.EncodedWord.Join
import LenientMime.Proofs.EncodedWord.Canonical
import LenientMime.Proofs.QuotedPrintable.Validity
import LenientMime.Proofs.MediaType.Division
import LenientMime.Proofs.Base64.Sifting
import LenientMime.Proofs.QuotedPrintable.Loss
import LenientMime.Proofs.Stream.Passing
import LenientMime.Proofs.MediaType.Tags
import LenientMime.Proofs.MediaType.FileName
import LenientMime.Proofs.MediaType.LineBreaks
import LenientMime.Proofs.MediaType.Entries
import LenientMime.Proofs.QuotedPrintable.Filling
import LenientMime.Proofs.QuotedPrintable.LineLength
import LenientMime.Proofs.MediaType.Order
import LenientMime.Proofs.MediaType.Damage
import LenientMime.Proofs.QuotedPrintable.Settled
import LenientMime.Proofs.Header.Folding
import LenientMime.Proofs.Header.Block
import LenientMime.Proofs.Header.LineEnds
import LenientMime.Proofs.Text.Acceptance
import LenientMime.Proofs.Header.RawText
import LenientMime.Proofs.MediaType.Quotes
import LenientMime.Proofs.EncodedWord.Turns
import LenientMime.Proofs.MediaType.Search
