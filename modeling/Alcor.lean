import Alcor.Proofs.Romfs.Image
import Alcor.Proofs.Romfs.SingleWriter
import Alcor.Proofs.Romfs.Space
import Alcor.Proofs.Romfs.Format
import Alcor.Proofs.Romfs.Sessions
import Alcor.Proofs.Buffer.Reconfigure
import Alcor.Proofs.Rfs.Assembly
import Alcor.Proofs.Interrupts.Queue
import Alcor.Proofs.Lua.Plan
import Alcor.Proofs.Lua.Direct
import Alcor.Proofs.Lua.PackedValue
import Alcor.Proofs.Lua.Rotable
import Alcor.Proofs.Sermux.Recovery
import Alcor.Proofs.Eluarpc.Strict
import Alcor.Proofs.Luarpc.Markers
import Alcor.Proofs.Luarpc.Sessions
import Alcor.Proofs.Luarpc.Serial
import Alcor.Proofs.Shell.Copy
import Alcor.Proofs.Xmodem.LostAck
import Alcor.Proofs.Rfs.Credit
import Alcor.Proofs.Rfs.FileServer
import Alcor.Proofs.Rfs.Transmission
import Alcor.Proofs.Newlib.Handles
import Alcor.Proofs.Newlib.Consoles
import Alcor.Proofs.Newlib.Volumes
import Alcor.Proofs.Newlib.Sbrk
import Alcor.Proofs.Uip.Receiving
import Alcor.Proofs.Timers.Counters
import Alcor.Proofs.Timers.Vtmr
import Alcor.Proofs.Shell.Erasure
import Alcor.Proofs.Shell.Simulated
import Alcor.Proofs.Shell.RecursiveCopy
import Alcor.Proofs.Shell.Files
import Alcor.Proofs.Shell.Recv
import Alcor.Proofs.Shell.Command
import Alcor.Proofs.Adc.Smoothing
import Alcor.Proofs.Uart.Handlers
import Alcor.Proofs.Pio.Ports
import Alcor.Proofs.Uart.Bindings
import Alcor.Proofs.Adc.Bindings
import Alcor.Proofs.Lua.BitarrayNew
import Alcor.Proofs.Salloc.Requests
import Alcor.Proofs.Lua.Egc
import Alcor.Proofs.Lua.Strings
import Alcor.Proofs.Rfs.Execution
import Alcor.Proofs.TinyScheme.Transparent
import Alcor.Proofs.Lua.Border
import Alcor.Proofs.Lua.Traversal
