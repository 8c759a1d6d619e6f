import ZiModem.Reactive.Accounting
import ZiModem.Hal.Net.Stream
import ZiModem.Hal.Net.TlsSession
import ZiModem.Hal.UartFifo
import ZiModem.Wrapper.SerialOut
import ZiModem.Reactive.Locking
import ZiModem.Hal.Pins
import ZiModem.Wrapper.Callbacks
import ZiModem.Wrapper.Dispatch
import ZiModem.Wrapper.Reentry
import ZiModem.Wrapper.Replacement
import ZiModem.Wrapper.Lifecycle
import ZiModem.Wrapper.Singleton
import ZiModem.Wrapper.Ownership
import ZiModem.Wrapper.Launch
import ZiModem.Wrapper.Worker
import ZiModem.Wrapper.Host
import ZiModem.Wrapper.Isolation
import ZiModem.Paths.Lexical
import ZiModem.Hal.FsRoot
import ZiModem.Hal.Net.UdpSocket
import ZiModem.Reactive.Resources
import ZiModem.Hal.Net.Handles
import ZiModem.Reactive.Edges
import ZiModem.Wrapper.Notification
import ZiModem.Reactive.Traces
import ZiModem.Hal.Net.TlsCalls
import ZiModem.Hal.Net.Undrained
import ZiModem.Wrapper.Convergence
import ZiModem.Wrapper.Session
import ZiModem.Wrapper.SessionOrder
import ZiModem.Wrapper.Deletion
import ZiModem.Wrapper.Confinement
import ZiModem.Hal.Net.Available
import ZiModem.Hal.Net.TlsFailedConnect
import ZiModem.Hal.Net.TlsLoops
import ZiModem.Hal.UartTimeout
import ZiModem.Hal.Net.Bio
import ZiModem.Hal.Net.Sigpipe
import ZiModem.Managed.SignalView
import ZiModem.Wrapper.CreateAtomic
import ZiModem.Paths.Tree
import ZiModem.Hal.Spiffs
import ZiModem.Patching.LinePatch
import ZiModem.Vendoring.Commands
import ZiModem.Vendoring.RoundTrip
import ZiModem.Hal.Net.Datagrams
import ZiModem.Hal.Format
import ZiModem.Hal.Arduino.WString
import ZiModem.Hal.Arduino.Replace
import ZiModem.Hal.Arduino.Print
import ZiModem.Hal.Arduino.ShortWrites
import ZiModem.Hal.Arduino.FS
import ZiModem.Hal.Arduino.FileText
import ZiModem.Hal.Arduino.FileHandles
import ZiModem.Hal.Arduino.Printf
import ZiModem.Hal.Net.Resolve
import ZiModem.Vendoring.Registration
import ZiModem.Hal.Arduino.IPAddress
import ZiModem.Text.LineEnds
import ZiModem.Vendoring.DirectoryCopy
import ZiModem.Vendoring.GitProcess
import ZiModem.Console.InputLoop
import ZiModem.Hal.Arduino.Itoa
import ZiModem.Hal.Arduino.Narrowing
import ZiModem.Reactive.LockOrder
import ZiModem.Reactive.Family
import ZiModem.Reactive.Sharing
import ZiModem.Paths.Disk
import ZiModem.Wrapper.Progress
import ZiModem.Managed.Device
import ZiModem.Managed.DeviceContract
import ZiModem.Managed.NativeLibraryResolver
import ZiModem.Console.KeyLoop
import ZiModem.Console.EchoServer
import ZiModem.Hal.Arduino.WiFiClient
import ZiModem.Hal.Arduino.FlatStore
import ZiModem.Vendoring.TreeCopy
import ZiModem.Vendoring.RepoPaths
import ZiModem.Vendoring.NewPatch
import ZiModem.Reactive.Reaching
import ZiModem.Wrapper.Drain
import ZiModem.Wrapper.Returning
import ZiModem.Console.Terminal
