import BlockContainer.Schema.FieldType

/-! # Failures

Every failure is a value that names its cause. The causes are grouped by what is to
blame: the bytes of a file, the configuration, the file system, an argument, a call
out of order. The wording of each is in `Error.message` and nowhere else.
-/
namespace BlockContainer

inductive FormatError where
  | bufferEnd (needed position size : Nat)
  | varintTooLong
  | intOutOfRange
  | negativeLength (length : Int64)
  | streamEndInVarint
  | streamEndInString (length : Nat)
  | magicMissing
  | magicMismatch
  | versionUnsupported (version : Int8)
  | metadataCount
  | headerMarkerMissing
  | blockFraming (offset : Nat) (count length : Int64)
  | blockTooLong (offset length remaining : Nat)
  | blockPayloadShort (offset : Nat)
  | blockMarkerMissing (offset : Nat)
  | blockMarkerMismatch (offset : Nat) (found expected : Bytes)
  | deflateCorrupt
  | deflateTruncated
  | fixedRecordSize (size : Nat)
deriving DecidableEq, Repr

inductive ConfigurationError where
  | schemaSyntax
  | schemaNotRecord
  | schemaUnnamed
  | schemaWithoutFields (schema : Bytes)
  | fieldUnnamed (schema : Bytes)
  | fieldUntyped (field : Bytes)
  | fieldTypeComplex (field : Bytes)
  | fieldTypeUnknown (name : Bytes)
  | schemaMissing
  | schemaMismatch (written wanted : Bytes)
  | codecUnknown (name : Bytes)
  | sourceUnnamed
  | sourceReversed (start stop : UInt64)
  | patternRange (source : Bytes)
deriving DecidableEq, Repr

inductive PathError where
  | missing | notDirectory | isDirectory
deriving DecidableEq, Repr

inductive ServiceError where
  | stat (path : Bytes) (reason : PathError)
  | openFile (path : Bytes) (reason : PathError)
  | openList (path : Bytes) (reason : PathError)
  | createFile (path : Bytes)
  | giveBack
  | deflateLevel
  | deflateFailed
deriving DecidableEq, Repr

inductive ArgumentError where
  | rangeReversed (start stop : UInt64)
  | recordWithoutSchema
  | valueType (field : Bytes) (type : FieldType)
  | patternEmpty
  | scanBufferEmpty
  | recordSchema (record writer : Bytes)
deriving DecidableEq, Repr

inductive CursorKind where
  | container | pattern
deriving DecidableEq, Repr

inductive Misuse where
  | firstRecordNotSplitPoint (offset : UInt64)
  | recordsOutOfOrder (offset last : UInt64)
  | readerClosed
  | noBlock
  | startedTwice (cursor : CursorKind)
  | notStarted (cursor : CursorKind)
  | noCurrentRecord
  | writerClosed (path : Bytes)
  | codecMissing
  | decoderMissing
deriving DecidableEq, Repr

inductive Error where
  | format (cause : FormatError)
  | configuration (cause : ConfigurationError)
  | service (cause : ServiceError)
  | argument (cause : ArgumentError)
  | misuse (cause : Misuse)
  | fieldUnknown (field schema : Bytes)
  | valueAlternative
  | writeFailed
deriving DecidableEq, Repr

open Bytes

def FormatError.message : FormatError → Bytes
  | bufferEnd needed position size =>
      s!"Unexpected end of buffer: needed {needed} bytes at position {position} of {size}"
  | varintTooLong => "Invalid varint: more than 10 bytes"
  | intOutOfRange => "Varint does not fit in a 32-bit int"
  | negativeLength length => s!"Negative length prefix: {length.toInt}"
  | streamEndInVarint => "Unexpected end of stream while reading varint"
  | streamEndInString length =>
      s!"Unexpected end of stream while reading {length} byte string"
  | magicMissing => "Not a container file: too short for magic bytes"
  | magicMismatch => "Not a container file: bad magic bytes"
  | versionUnsupported version => s!"Unsupported container format version: {version.toInt}"
  | metadataCount => "Corrupt metadata map block count"
  | headerMarkerMissing => "Truncated container header: missing sync marker"
  | blockFraming offset count length =>
      s!"Invalid block framing at offset {offset}: record count {count.toInt}, " ++
      s!"payload length {length.toInt}"
  | blockTooLong offset length remaining =>
      s!"Truncated block at offset {offset}: declares {length} payload bytes " ++
      s!"but only {remaining} remain"
  | blockPayloadShort offset => s!"Truncated block payload at offset {offset}"
  | blockMarkerMissing offset => s!"Truncated block at offset {offset}: missing sync marker"
  | blockMarkerMismatch offset found expected =>
      s!"Invalid sync marker after block at offset {offset}: found " ++ hex found ++
      ", expected " ++ hex expected
  | deflateCorrupt => "Corrupt deflate payload"
  | deflateTruncated => "Truncated deflate payload"
  | fixedRecordSize size => s!"FixedRecord holds {size} bytes"

def ConfigurationError.message : ConfigurationError → Bytes
  | schemaSyntax => "Unable to parse schema"
  | schemaNotRecord => "Unsupported schema: only record schemas are supported"
  | schemaUnnamed => "Record schema has no name"
  | schemaWithoutFields schema => "Record schema '" ++ schema ++ "' has no fields"
  | fieldUnnamed schema => "Field without a name in schema '" ++ schema ++ "'"
  | fieldUntyped field => "Field '" ++ field ++ "' has no type"
  | fieldTypeComplex field =>
      "Unsupported type for field '" ++ field ++ "': only primitive types are supported"
  | fieldTypeUnknown name => "Unsupported field type: '" ++ name ++ "'"
  | schemaMissing => "No schema bound and the file header carries none"
  | schemaMismatch written wanted =>
      "File written with schema " ++ written ++ " cannot be read as " ++ wanted
  | codecUnknown name => "Unsupported codec: '" ++ name ++ "'"
  | sourceUnnamed => "Source requires a file or file pattern"
  | sourceReversed start stop =>
      s!"Invalid source range: start {start.toNat} is after end {stop.toNat}"
  | patternRange source => "A file pattern source must cover whole files: " ++ source

def PathError.message : PathError → Bytes
  | missing => "No such file or directory"
  | notDirectory => "Not a directory"
  | isDirectory => "Is a directory"

def ServiceError.message : ServiceError → Bytes
  | stat path reason => "Could not stat file " ++ path ++ ": " ++ reason.message
  | openFile path reason => "Could not open file " ++ path ++ " (" ++ reason.message ++ ")"
  | openList path reason =>
      "Unable to open input file list: " ++ path ++ " (" ++ reason.message ++ ")"
  | createFile path => "Could not open file " ++ path
  | giveBack => "Unable to return bytes read past the sync marker"
  | deflateLevel => "deflateInit2 failed: zlib error code -2"
  | deflateFailed => "deflate failed: zlib error code -2"

def ArgumentError.message : ArgumentError → Bytes
  | rangeReversed start stop => s!"Invalid range: stop {stop.toNat} < start {start.toNat}"
  | recordWithoutSchema => "GenericRecord requires a schema"
  | valueType field type =>
      "Value for field '" ++ field ++ "' does not match its type " ++ type.name
  | patternEmpty => "Seeker pattern must not be empty"
  | scanBufferEmpty => "The sync scan buffer size must be greater than zero"
  | recordSchema record writer =>
      "Record schema " ++ record ++ " does not match writer schema " ++ writer

def CursorKind.name : CursorKind → Bytes
  | container => "ContainerReader"
  | pattern => "FilePatternReader"

def Misuse.message : Misuse → Bytes
  | firstRecordNotSplitPoint offset =>
      s!"The first record must be at a split point, offset {offset.toNat}"
  | recordsOutOfOrder offset last =>
      s!"Records returned out of order: {offset.toNat} after {last.toNat}"
  | readerClosed => "BlockReader::read_next_block on closed reader"
  | noBlock => "No block has been read"
  | startedTwice cursor => cursor.name ++ "::start called twice"
  | notStarted cursor => cursor.name ++ "::advance before start"
  | noCurrentRecord => "No current record"
  | writerClosed path => "Write to closed file " ++ path
  | codecMissing => "A block was read before its codec was chosen"
  | decoderMissing => "A record was read before its decoder was chosen"

def Error.message : Error → Bytes
  | format cause => cause.message
  | configuration cause => cause.message
  | service cause => cause.message
  | argument cause => cause.message
  | misuse cause => cause.message
  | fieldUnknown field schema => "No field named '" ++ field ++ "' in schema " ++ schema
  | valueAlternative => "The value has another type"
  | writeFailed => "The stream refused the bytes"

/-- The line that a refused file leaves in the log, whoever handles the failure. -/
def Error.logged? : Error → Option Bytes
  | service (.stat path reason) =>
      some ("Could not stat file " ++ path ++ " (" ++ reason.message ++ ")")
  | service (.openFile path reason) => some (ServiceError.openFile path reason).message
  | service (.openList path reason) => some (ServiceError.openList path reason).message
  | _ => none

end BlockContainer
