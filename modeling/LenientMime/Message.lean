import LenientMime.Base64.Alphabet
import LenientMime.Header.Block
import LenientMime.Header.Field
import LenientMime.Header.RawText
import LenientMime.MediaType.Lenient
import LenientMime.Multipart.Walk
import LenientMime.QuotedPrintable.Piece
import LenientMime.Stream.Slice

namespace LenientMime

inductive Message where
  | leaf (fields : List Header.Field) (body : Bytes) (cleaned : Option Bytes)
  /-- The parts of a multipart body, the error that stopped the walk if one did,
  whether the terminator was missing, and what follows it. -/
  | multipart (fields : List Header.Field) (parts : List Message) (error : Option Error)
      (unbounded : Bool) (epilogue : Bytes)

namespace Header

def mediaType? (fields : List Field) (name : Text) (codec : Codec := .standard) :
    Option (Except Error MediaType) :=
  (value? fields name).map (MediaType.read · codec)

def contentType? (fields : List Field) (codec : Codec := .standard) :
    Option (Except Error MediaType) :=
  mediaType? fields "content-type".toList codec

def disposition? (fields : List Field) (codec : Codec := .standard) :
    Option (Except Error MediaType) :=
  mediaType? fields "content-disposition".toList codec

def subject? (fields : List Field) (codec : Codec := .standard) : Option Text :=
  (value? fields "subject".toList).map (Text.decodeWords · codec)

def multipartBoundary? (fields : List Field) (codec : Codec := .standard) : Option Text :=
  match contentType? fields codec with
  | some (.ok media) => if media.isMultipart then media.boundary? else none
  | _ => none

def cleanedBody? (fields : List Field) (body : Bytes) : Option Bytes :=
  match (value? fields "content-transfer-encoding".toList).map Text.lower with
  | some encoding =>
      if encoding = "quoted-printable".toList then some (QuotedPrintable.mend body)
      else if encoding = "base64".toList then some (Base64.sift body)
      else none
  | none => none

end Header

namespace Message

def fields : Message → List Header.Field
  | .leaf fields _ _ => fields
  | .multipart fields _ _ _ _ => fields

def depthLimit : Nat := 20

/-- Reads a message in which multipart bodies may stand `depth` deep. -/
def readWithin (codec : Codec) : Nat → Bytes → Message
  | depth, bytes =>
      let (header, bodyOffset) := Header.splitBlock bytes
      let body := bytes.drop bodyOffset
      let fields := Header.fields (Header.rawText header)
      match depth, Header.multipartBoundary? fields codec with
      | depth + 1, some boundary =>
          let walked := Multipart.PartReader.walk { source := body, boundary }
          .multipart fields (walked.contents.map (readWithin codec depth)) walked.error
            walked.reader.unbounded walked.reader.source
      | _, _ => .leaf fields body (Header.cleanedBody? fields body)

def read (bytes : Bytes) (codec : Codec := .standard) : Message :=
  readWithin codec depthLimit bytes

end Message

end LenientMime
