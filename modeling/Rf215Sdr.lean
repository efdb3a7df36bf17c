import Rf215Sdr.Lib.Resync
import Rf215Sdr.Lib.Symbols
import Rf215Sdr.Lib.Bytes
import Rf215Sdr.Lib.Memory
import Rf215Sdr.Lib.CString
import Rf215Sdr.Lib.Text
import Rf215Sdr.Lib.Interleaving
import Rf215Sdr.Lib.LossyQueue
import Rf215Sdr.Fpga.LvdsRx
import Rf215Sdr.Fpga.LvdsOutput
import Rf215Sdr.Fpga.LvdsFraming
import Rf215Sdr.Fpga.IqStreamSource
import Rf215Sdr.Fpga.ReceiveChain
import Rf215Sdr.Hps.Datagram
import Rf215Sdr.Hps.DmaEngine
import Rf215Sdr.Hps.DmaLoop
import Rf215Sdr.Hps.PingPong
import Rf215Sdr.Host.UdpIqSource
import Rf215Sdr.SampleTransport
import Rf215Sdr.Host.Receiver
import Rf215Sdr.Host.LossAccounting
import Rf215Sdr.Lib.PyText
import Rf215Sdr.Hps.Config
import Rf215Sdr.Lib.Binary64
import Rf215Sdr.Host.CfgSender
import Rf215Sdr.Hps.ConfigDaemon
import Rf215Sdr.ConfigRoundTrip
import Rf215Sdr.Fpga.CsFuser
import Rf215Sdr.Fpga.StreamMarkers
import Rf215Sdr.Hps.TestMode
import Rf215Sdr.PacketSizes
import Rf215Sdr.Hps.Startup
import Rf215Sdr.Hps.DaemonRuns
import Rf215Sdr.Lib.LastWins
import Rf215Sdr.Hps.ConfigReference
import Rf215Sdr.Lib.RingBuffer
import Rf215Sdr.Lib.TriggerWindows
import Rf215Sdr.Hps.DebugTxt
import Rf215Sdr.Hps.TriggerState
import Rf215Sdr.Fpga.DcFifo
import Rf215Sdr.Fpga.DcFifoQueue
import Rf215Sdr.Fpga.DataFormatAdapter
import Rf215Sdr.Fpga.SamplePath
import Rf215Sdr.Fpga.PathThroughput
import Rf215Sdr.Fpga.ByteEnables
import Rf215Sdr.Fpga.WriteMaster
import Rf215Sdr.Fpga.WriteMasterCopies
import Rf215Sdr.Fpga.WriteMasterAnswers
import Rf215Sdr.Fpga.Dispatcher
import Rf215Sdr.Fpga.Msgdma
import Rf215Sdr.Fpga.MsgdmaServes
import Rf215Sdr.Fpga.WriteMasterProgress
import Rf215Sdr.MsgdmaEngine
