import Gateway.CoapServer.HelloRuns
import Gateway.CoapServer.ParseSafety
import Gateway.CoapClient.Calls
import Gateway.CoapClient.OptionLookup
import Gateway.CoapServer.BuildBounds
import Gateway.CoapServer.Routing
import Gateway.CoapServer.Discovery
import Gateway.CoapClient.PayloadSpec
import Gateway.CoapClient.Turn
import Gateway.CoapClient.AddAnywhere
import Gateway.CoapClient.HeaderCodec
import Gateway.Comm.ListRuns
import Gateway.TFTPServer.TableUpdate
import Gateway.TFTPServer.Resources
import Gateway.TFTPServer.RequestDecode
import Gateway.Uart.Resync
import Gateway.Sqlite.InsertDb
import Gateway.User.FifoStream
import Gateway.Iptable.ResourcePath
import Gateway.Iptable.TableText
import Gateway.User.TableReload
import Gateway.User.Startup
import Gateway.User.MsgMemory
import Gateway.User.MsgQMutex
import Gateway.User.Delivery
import Gateway.User.StartupEnd
import Gateway.User.Pipeline
import Gateway.User.Upload
import Gateway.TFTPServer.Store
import Gateway.Network.Answers
import Gateway.Network.InStep
import Gateway.Network.Recognition
import Gateway.Network.EndToEnd
import Gateway.CoapServer.Rebuild
import Gateway.Sqlite.MessageLog
