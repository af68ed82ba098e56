import LibWfut.Library.Run
import LibWfut.Library.Crc32
import LibWfut.Library.FileTree
import LibWfut.Library.Listing
import LibWfut.Library.Footprint
import LibWfut.Library.OrderedMap
import LibWfut.Library.Decimal
import LibWfut.Library.Uri
import LibWfut.Library.Scan
import LibWfut.Model.Types
import LibWfut.Model.Encoder
import LibWfut.Model.Platform
import LibWfut.Model.Walk
import LibWfut.Model.Io
import LibWfut.Model.FileIO
import LibWfut.Model.TinyXml
import LibWfut.Model.TinyXmlPrinter
import LibWfut.Model.ChannelIO
import LibWfut.Model.Download
import LibWfut.Model.Client
import LibWfut.Model.Tool
import LibWfut.Model.Main
import LibWfut.Verification.Io.Invariant
import LibWfut.Verification.Io.Operations
import LibWfut.Verification.Io.Polling
import LibWfut.Verification.Io.Quiet
import LibWfut.Verification.Io.LifeCycle
import LibWfut.Verification.Io.Duplicates
import LibWfut.Verification.Io.Scheduling
import LibWfut.Verification.Io.Reentrancy
import LibWfut.Verification.Io.Returned
import LibWfut.Verification.Io.Sessions
import LibWfut.Verification.Io.Retry
import LibWfut.Verification.Io.Agreement
import LibWfut.Verification.Files.Checksums
import LibWfut.Verification.Files.Directories
import LibWfut.Verification.Files.Copy
import LibWfut.Verification.Files.Agreement
import LibWfut.Verification.Files.Ahead
import LibWfut.Verification.Files.Parents
import LibWfut.Verification.Files.Walk
import LibWfut.Verification.Files.Listing
import LibWfut.Verification.Download.Complete
import LibWfut.Verification.Download.Handling
import LibWfut.Verification.Download.Failed
import LibWfut.Verification.Download.Blocking
import LibWfut.Verification.FileList.Codec
import LibWfut.Verification.Encoding.Urls
import LibWfut.Verification.Encoding.Decoding
import LibWfut.Verification.FileList.Lists
import LibWfut.Verification.FileList.Reading
import LibWfut.Verification.FileList.RoundTrip
import LibWfut.Verification.FileList.Log
import LibWfut.Verification.Lists.Records
import LibWfut.Verification.Lists.Channels
import LibWfut.Verification.Xml.Values
import LibWfut.Verification.Xml.Tags
import LibWfut.Verification.Xml.Parsing
import LibWfut.Verification.Xml.Trees
import LibWfut.Verification.Xml.FileLists
import LibWfut.Verification.Xml.Torn
import LibWfut.Verification.Xml.ChannelLists
import LibWfut.Verification.Client.UpdateCycle
import LibWfut.Verification.Client.Containment
import LibWfut.Verification.Client.Acceptance
import LibWfut.Verification.Client.Decisions
import LibWfut.Verification.Client.Unreadable
import LibWfut.Verification.Client.SingleFiles
import LibWfut.Verification.Client.Requests
import LibWfut.Verification.Client.AbortByName
import LibWfut.Verification.Tool.Runs
import LibWfut.Verification.Tool.Offers
import LibWfut.Verification.Tool.Saving
import LibWfut.Verification.Tool.Accounting
import LibWfut.Verification.Tool.Ground
import LibWfut.Verification.Tool.Independence
import LibWfut.Verification.Tool.Turns
import LibWfut.Verification.Tool.Effects
import LibWfut.Verification.Tool.Results
import LibWfut.Verification.Tool.Crashes
import LibWfut.Verification.Tool.Interruptions
import LibWfut.Verification.Tool.Steady
import LibWfut.Verification.Tool.Answers
