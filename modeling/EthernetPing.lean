import EthernetPing.Lib.Ring
import EthernetPing.Lib.Bytes
import EthernetPing.Lib.Prog
import EthernetPing.Lib.SeqNum
import EthernetPing.Lib.Machine
import EthernetPing.Core.SysArch
import EthernetPing.Core.Button
import EthernetPing.Driver.Chip
import EthernetPing.Driver.Enc28j60
import EthernetPing.Driver.Access
import EthernetPing.Driver.Config
import EthernetPing.Driver.Receive
import EthernetPing.Driver.Fifo
import EthernetPing.Driver.Receipts
import EthernetPing.Driver.Guard
import EthernetPing.Driver.Output
import EthernetPing.Driver.Transmit
import EthernetPing.Driver.Wait
import EthernetPing.Driver.Restart
import EthernetPing.Driver.Phy
import EthernetPing.Net.Pbuf
import EthernetPing.Net.Chain
import EthernetPing.Net.MainLoop
import EthernetPing.Net.Length
import EthernetPing.Net.Station
import EthernetPing.Net.Checksum
import EthernetPing.Net.EchoRuns
import EthernetPing.Net.TimerRuns
import EthernetPing.Tcp.Pcb
import EthernetPing.Tcp.Output
import EthernetPing.Tcp.Receive
import EthernetPing.Tcp.Close
import EthernetPing.Tcp.Input
import EthernetPing.Tcp.FinLast
import EthernetPing.Tcp.InOrder
import EthernetPing.Tcp.Established
import EthernetPing.Tcp.Stream
import EthernetPing.Tcp.Ooseq
import EthernetPing.Tcp.Feed
import EthernetPing.Tcp.SendLife
import EthernetPing.Http.Server
import EthernetPing.Http.Connection
import EthernetPing.Http.Answer
import EthernetPing.Http.Request
import EthernetPing.Http.Outbound
import EthernetPing.Http.EndToEnd
