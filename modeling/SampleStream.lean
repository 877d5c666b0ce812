import SampleStream.Benchmark.Exchange
import SampleStream.Benchmark.Packet
import SampleStream.Benchmark.Report
import SampleStream.Benchmark.Script
import SampleStream.Bytes
import SampleStream.Checked
import SampleStream.Config.Read
import SampleStream.Config.Settings
import SampleStream.Config.Write
import SampleStream.Guarded
import SampleStream.Link
import SampleStream.Marker
import SampleStream.Number.Binary
import SampleStream.Number.Decimal
import SampleStream.Number.Real
import SampleStream.Number.Rounding
import SampleStream.Packet.Codec
import SampleStream.Packet.Error
import SampleStream.Packet.Frame
import SampleStream.Packet.Guarded
import SampleStream.Packet.Header
import SampleStream.Packet.Record
import SampleStream.Proofs.Benchmark.Acceptance
import SampleStream.Proofs.Benchmark.Counts
import SampleStream.Proofs.Benchmark.Packets
import SampleStream.Proofs.Benchmark.Schedules
import SampleStream.Proofs.Loopback.Identity
import SampleStream.Proofs.Loopback.Packed
import SampleStream.Proofs.Loopback.Run
import SampleStream.Proofs.Number.Bounds
import SampleStream.Proofs.Number.Doubles
import SampleStream.Proofs.Number.Floors
import SampleStream.Proofs.Number.Rounding
import SampleStream.Proofs.Packet.Acceptance
import SampleStream.Proofs.Packet.Bounds
import SampleStream.Proofs.Packet.Canonical
import SampleStream.Proofs.Packet.Frames
import SampleStream.Proofs.Packet.Record
import SampleStream.Proofs.Packet.RoundTrip
import SampleStream.Proofs.Queue.HandOver
import SampleStream.Proofs.Queue.History
import SampleStream.Proofs.Queue.WakeUps
import SampleStream.Proofs.Receive.Alignment
import SampleStream.Proofs.Receive.Answers
import SampleStream.Proofs.Receive.Bounds
import SampleStream.Proofs.Receive.Call
import SampleStream.Proofs.Receive.Closing
import SampleStream.Proofs.Receive.Conditions
import SampleStream.Proofs.Receive.Conservation
import SampleStream.Proofs.Receive.Course
import SampleStream.Proofs.Receive.Fetch
import SampleStream.Proofs.Receive.Fragments
import SampleStream.Proofs.Receive.Gaps
import SampleStream.Proofs.Receive.History
import SampleStream.Proofs.Receive.Ledger
import SampleStream.Proofs.Receive.Queue
import SampleStream.Proofs.Receive.Restarts
import SampleStream.Proofs.Receive.Run
import SampleStream.Proofs.Receive.Schedule
import SampleStream.Proofs.Receive.Session
import SampleStream.Proofs.Receive.Telling
import SampleStream.Proofs.Receive.Tiling
import SampleStream.Proofs.Receive.Times
import SampleStream.Proofs.Receive.Together
import SampleStream.Proofs.Report.Collection
import SampleStream.Proofs.Report.RoundTrip
import SampleStream.Proofs.Sample.Bits
import SampleStream.Proofs.Sample.Bounds
import SampleStream.Proofs.Sample.Decode
import SampleStream.Proofs.Sample.Encode
import SampleStream.Proofs.Sample.ItemSizes
import SampleStream.Proofs.Sample.Layout
import SampleStream.Proofs.Sample.Lookup
import SampleStream.Proofs.Sample.Overlay
import SampleStream.Proofs.Sample.Packing
import SampleStream.Proofs.Sample.Patching
import SampleStream.Proofs.Sample.Pieces
import SampleStream.Proofs.Sample.Registrations
import SampleStream.Proofs.Sample.Tables
import SampleStream.Proofs.Sample.Unpacking
import SampleStream.Proofs.Stream.Reading
import SampleStream.Proofs.Stream.Settings
import SampleStream.Proofs.Time.Exact
import SampleStream.Proofs.Time.Range
import SampleStream.Proofs.Transmit.Bursts
import SampleStream.Proofs.Transmit.Fitting
import SampleStream.Proofs.Transmit.Framing
import SampleStream.Proofs.Transmit.Offers
import SampleStream.Proofs.Transmit.OneLink
import SampleStream.Proofs.Transmit.Packets
import SampleStream.Proofs.Transmit.Send
import SampleStream.Queue.Bounded
import SampleStream.Queue.Monitor
import SampleStream.Receive.Align
import SampleStream.Receive.Call
import SampleStream.Receive.Channel
import SampleStream.Receive.Guarded
import SampleStream.Receive.Metadata
import SampleStream.Receive.Receiver
import SampleStream.Report.Basic
import SampleStream.Report.Event
import SampleStream.Report.Worker
import SampleStream.Sample.Block
import SampleStream.Sample.Converter
import SampleStream.Sample.Format
import SampleStream.Sample.Guarded
import SampleStream.Sample.GuardedShorts
import SampleStream.Sample.Packed
import SampleStream.Sample.Registry
import SampleStream.Sample.Shifts
import SampleStream.Stream.Command
import SampleStream.Stream.Conversion
import SampleStream.Stream.Error
import SampleStream.Stream.Options
import SampleStream.Text.Blank
import SampleStream.Text.Hex
import SampleStream.Time.Exact
import SampleStream.Time.Reckoning
import SampleStream.Time.Timestamp
import SampleStream.Toml.DateTime
import SampleStream.Toml.Document
import SampleStream.Toml.Lexical
import SampleStream.Toml.Node
import SampleStream.Toml.Number
import SampleStream.Toml.Text
import SampleStream.Toml.Value
import SampleStream.Transmit.Call
import SampleStream.Transmit.Channel
import SampleStream.Transmit.Metadata
import SampleStream.Transmit.Transmitter
