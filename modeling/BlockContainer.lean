import BlockContainer.Block.Basic
import BlockContainer.Block.Contents
import BlockContainer.Block.Reader
import BlockContainer.Bytes
import BlockContainer.Codec
import BlockContainer.CommandLine.Arguments
import BlockContainer.CommandLine.Choices
import BlockContainer.CommandLine.OptionName
import BlockContainer.CommandLine.Report
import BlockContainer.CommandLine.Run
import BlockContainer.Consumption
import BlockContainer.Decoder
import BlockContainer.Deflate.Bits
import BlockContainer.Deflate.Block
import BlockContainer.Deflate.Chunks
import BlockContainer.Deflate.Compress
import BlockContainer.Deflate.Heap
import BlockContainer.Deflate.Inflate
import BlockContainer.Deflate.PrefixCode
import BlockContainer.Deflate.Search
import BlockContainer.Deflate.Token
import BlockContainer.Deflate.WordLengths
import BlockContainer.Encoder
import BlockContainer.Error
import BlockContainer.FileTree
import BlockContainer.Focus
import BlockContainer.Glob.Class
import BlockContainer.Glob.Expansion
import BlockContainer.Glob.Pattern
import BlockContainer.Glob.Set
import BlockContainer.Header.Basic
import BlockContainer.Header.Metadata
import BlockContainer.Header.Read
import BlockContainer.Header.Write
import BlockContainer.Json.Token
import BlockContainer.Json.Tree
import BlockContainer.Main
import BlockContainer.Marker.Random
import BlockContainer.Marker.Scan
import BlockContainer.Marker.Search
import BlockContainer.Number.Binary
import BlockContainer.Number.Decimal
import BlockContainer.Options
import BlockContainer.Output
import BlockContainer.Pool.Basic
import BlockContainer.Pool.Control
import BlockContainer.Pool.Solo
import BlockContainer.Proofs.Block.Alignment
import BlockContainer.Proofs.Block.Framing
import BlockContainer.Proofs.Block.Opening
import BlockContainer.Proofs.Block.Reports
import BlockContainer.Proofs.Block.Series
import BlockContainer.Proofs.CommandLine.Total
import BlockContainer.Proofs.Container.Assembly
import BlockContainer.Proofs.Container.Basic
import BlockContainer.Proofs.Container.Blocks
import BlockContainer.Proofs.Container.Cutting
import BlockContainer.Proofs.Container.Extension
import BlockContainer.Proofs.Container.Opening
import BlockContainer.Proofs.Container.Partition
import BlockContainer.Proofs.Container.Pending
import BlockContainer.Proofs.Container.Returning
import BlockContainer.Proofs.Container.Splitting
import BlockContainer.Proofs.Decoder.Confinement
import BlockContainer.Proofs.Deflate.Payloads
import BlockContainer.Proofs.Deflate.Prefix
import BlockContainer.Proofs.Deflate.Stored
import BlockContainer.Proofs.Header.Passes
import BlockContainer.Proofs.Header.Reading
import BlockContainer.Proofs.Header.RoundTrip
import BlockContainer.Proofs.Json.Utf8
import BlockContainer.Proofs.Marker.Borders
import BlockContainer.Proofs.Marker.Enumeration
import BlockContainer.Proofs.Marker.Fallback
import BlockContainer.Proofs.Marker.Occurrences
import BlockContainer.Proofs.Marker.Scan
import BlockContainer.Proofs.Marker.Search
import BlockContainer.Proofs.Marker.Streaming
import BlockContainer.Proofs.Number.Rounding
import BlockContainer.Proofs.Output.Delivery
import BlockContainer.Proofs.Passes
import BlockContainer.Proofs.Pool.Accounting
import BlockContainer.Proofs.Pool.Completion
import BlockContainer.Proofs.Pool.Rebalancing
import BlockContainer.Proofs.Range.Arbitration
import BlockContainer.Proofs.Range.Progress
import BlockContainer.Proofs.Range.SplitPoint
import BlockContainer.Proofs.Reader.AnyBytes
import BlockContainer.Proofs.Reader.Calls
import BlockContainer.Proofs.Reader.Closing
import BlockContainer.Proofs.Reader.Concatenation
import BlockContainer.Proofs.Reader.Exhausted
import BlockContainer.Proofs.Reader.InStep
import BlockContainer.Proofs.Reader.Passage
import BlockContainer.Proofs.Reader.Passes
import BlockContainer.Proofs.Reader.Progress
import BlockContainer.Proofs.Reader.Steps
import BlockContainer.Proofs.Reader.Turns
import BlockContainer.Proofs.Record.Binding
import BlockContainer.Proofs.Record.Decoding
import BlockContainer.Proofs.Record.Reachable
import BlockContainer.Proofs.Record.RoundTrip
import BlockContainer.Proofs.Runs
import BlockContainer.Proofs.Schema.Rereading
import BlockContainer.Proofs.Schema.RoundTrip
import BlockContainer.Proofs.Source.Bundling
import BlockContainer.Proofs.Stream.Agreement
import BlockContainer.Proofs.Stream.Position
import BlockContainer.Proofs.Varint.Reading
import BlockContainer.Proofs.Varint.Shortest
import BlockContainer.Proofs.Varint.Spelling
import BlockContainer.Proofs.Writer.Accounting
import BlockContainer.Proofs.Writer.Calls
import BlockContainer.Proofs.Writer.Closing
import BlockContainer.Proofs.Writer.Offsets
import BlockContainer.Proofs.Writer.RoundTrip
import BlockContainer.Proofs.Writer.Truncation
import BlockContainer.Range.SplitPoint
import BlockContainer.Range.Tracker
import BlockContainer.Reader.Basic
import BlockContainer.Reader.Container
import BlockContainer.Reader.Exhaustion
import BlockContainer.Reader.Pattern
import BlockContainer.Reader.Turn
import BlockContainer.Record.Generic
import BlockContainer.Record.Typed
import BlockContainer.Record.Value
import BlockContainer.Repeated
import BlockContainer.Schema.Basic
import BlockContainer.Schema.Binding
import BlockContainer.Schema.FieldType
import BlockContainer.Schema.Json
import BlockContainer.Source.Basic
import BlockContainer.Source.Bundle
import BlockContainer.Stream
import BlockContainer.Stream.Consumption
import BlockContainer.Varint
import BlockContainer.Writer
