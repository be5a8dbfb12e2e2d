import ThirdParty.Lib.Bytes
import ThirdParty.Lib.CString
import ThirdParty.Lib.Chain
import ThirdParty.Lib.Deltas
import ThirdParty.Lib.FirstFit
import ThirdParty.Lib.Run
import ThirdParty.Lib.Trace
import ThirdParty.Lib.Ledger
import ThirdParty.Lib.OnesComplement
import ThirdParty.Lib.Pacing
import ThirdParty.Lib.Ring
import ThirdParty.Lib.Transducer
import ThirdParty.Lib.Scan
import ThirdParty.Lib.Words
import ThirdParty.Lwip.Api
import ThirdParty.Lwip.Mem
import ThirdParty.Lwip.Packets
import ThirdParty.Lwip.Checksum
import ThirdParty.Lwip.Correctness.Heap
import ThirdParty.Lwip.Correctness.Allocator
import ThirdParty.Lwip.Correctness.Packets
import ThirdParty.Lwip.Correctness.References
import ThirdParty.Lwip.Correctness.Contents
import ThirdParty.Lwip.Correctness.Strings
import ThirdParty.Lwip.Correctness.Search
import ThirdParty.Lwip.Correctness.Checksum
import ThirdParty.Lwip.Correctness.Headers
import ThirdParty.Lwip.MemShared
import ThirdParty.Lwip.Correctness.Shared
import ThirdParty.Lwip.Timers
import ThirdParty.Lwip.Correctness.Timers
import ThirdParty.Lwip.Pbuf
import ThirdParty.Lwip.Correctness.Views
import ThirdParty.Httpd.Fs
import ThirdParty.Httpd.State
import ThirdParty.Httpd.Tags
import ThirdParty.Httpd.SendData
import ThirdParty.Httpd.Response
import ThirdParty.Httpd.Uri
import ThirdParty.Httpd.Headers
import ThirdParty.Httpd.Cgi
import ThirdParty.Httpd.Callbacks
import ThirdParty.Httpd.Correctness.Requests
import ThirdParty.Httpd.Correctness.Opening
import ThirdParty.Httpd.Server
import ThirdParty.Httpd.Correctness.Sending
import ThirdParty.Httpd.Correctness.Closing
import ThirdParty.Httpd.Correctness.Log
import ThirdParty.Httpd.Correctness.Resources
import ThirdParty.Httpd.Correctness.Callbacks
import ThirdParty.Httpd.Correctness.Conservation
import ThirdParty.Httpd.Correctness.AfterClose
import ThirdParty.Httpd.Reference
import ThirdParty.Httpd.TagParser
import ThirdParty.Httpd.Correctness.Plain
import ThirdParty.Httpd.Correctness.HeaderBytes
import ThirdParty.Httpd.Correctness.Segments
import ThirdParty.Httpd.Correctness.States
import ThirdParty.Httpd.Correctness.Cursors
import ThirdParty.Httpd.Correctness.Answer
import ThirdParty.Httpd.Correctness.Bounds
import ThirdParty.Httpd.Correctness.CgiParams
import ThirdParty.Httpd.Correctness.ContentType
import ThirdParty.Httpd.Correctness.Feeding
import ThirdParty.Httpd.Correctness.Delivery
import ThirdParty.Httpd.Correctness.Termination
import ThirdParty.Httpd.Correctness.FullBuffer
import ThirdParty.Httpd.Correctness.Ssi
import ThirdParty.Httpd.Correctness.Inserts
import ThirdParty.Httpd.Correctness.Interference
import ThirdParty.Httpd.Correctness.Returns
import ThirdParty.Httpd.Markers
import ThirdParty.Httpd.Correctness.Scanner
import ThirdParty.Httpd.Correctness.SsiCursors
import ThirdParty.Httpd.Correctness.TagNames
import ThirdParty.Eth.PbufQueue
import ThirdParty.Eth.Driver
import ThirdParty.Eth.Correctness.Wakeup
import ThirdParty.Eth.Correctness.Handshake
import ThirdParty.Eth.Correctness.Flood
import ThirdParty.Eth.Fifo
import ThirdParty.Eth.Correctness.Reassembly
import ThirdParty.Eth.Correctness.Overrun
import ThirdParty.Eth.Correctness.Packing
import ThirdParty.Eth.Correctness.Receive
import ThirdParty.Eth.Correctness.Transmit
import ThirdParty.Eth.Correctness.TxRing
import ThirdParty.Lcd.Display
import ThirdParty.Lcd.Correctness.Framing
