import BgpReceiver.Capture.Dump
import BgpReceiver.Capture.Lines
import BgpReceiver.Capture.Task
import BgpReceiver.Framework.Acceptor
import BgpReceiver.Framework.Bits
import BgpReceiver.Framework.Channels
import BgpReceiver.Framework.Fields
import BgpReceiver.Framework.FileSystem
import BgpReceiver.Framework.Framing
import BgpReceiver.Framework.Headings
import BgpReceiver.Framework.Interning
import BgpReceiver.Framework.OrdMap
import BgpReceiver.Framework.Paging
import BgpReceiver.Framework.Pattern
import BgpReceiver.Framework.Product
import BgpReceiver.Framework.Reader
import BgpReceiver.Framework.Suffix
import BgpReceiver.Framework.System
import BgpReceiver.Framework.Tally
import BgpReceiver.Framework.Text
import BgpReceiver.Framework.TwoRuns
import BgpReceiver.Framework.Writes
import BgpReceiver.IpAddr
import BgpReceiver.Json
import BgpReceiver.JsonText
import BgpReceiver.Persist.Cadence
import BgpReceiver.Persist.Failure
import BgpReceiver.Persist.Files
import BgpReceiver.Rib.Apply
import BgpReceiver.Rib.Arrival
import BgpReceiver.Rib.As4Path
import BgpReceiver.Rib.Cancellation
import BgpReceiver.Rib.Events
import BgpReceiver.Rib.Export
import BgpReceiver.Rib.History
import BgpReceiver.Rib.Identity
import BgpReceiver.Rib.Listing
import BgpReceiver.Rib.Midway
import BgpReceiver.Rib.OriginAs
import BgpReceiver.Rib.Padding
import BgpReceiver.Rib.Replication
import BgpReceiver.Rib.Search
import BgpReceiver.Rib.Sharing
import BgpReceiver.Rib.UnicastIdentity
import BgpReceiver.Rib.Visibility
import BgpReceiver.Session.Completion
import BgpReceiver.Session.Connected
import BgpReceiver.Session.Control
import BgpReceiver.Session.Exclusive
import BgpReceiver.Session.Framing
import BgpReceiver.Session.Health
import BgpReceiver.Session.Inbound
import BgpReceiver.Session.Lifecycle
import BgpReceiver.Session.Lockout
import BgpReceiver.Session.Octets
import BgpReceiver.Session.Opening
import BgpReceiver.Session.Request
import BgpReceiver.Session.Table
import BgpReceiver.Session.Timers
import BgpReceiver.Wire.ActionText
import BgpReceiver.Wire.Actions
import BgpReceiver.Wire.Basic
import BgpReceiver.Wire.Encoding
import BgpReceiver.Wire.Grammar
import BgpReceiver.Wire.Helpers
import BgpReceiver.Wire.Isolation
import BgpReceiver.Wire.Offset
import BgpReceiver.Wire.Path
import BgpReceiver.Wire.Redirect
import BgpReceiver.Wire.Report
import BgpReceiver.Wire.Update
