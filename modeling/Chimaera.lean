import Chimaera.Acpi.Bounds
import Chimaera.Acpi.Discovery
import Chimaera.Ata.Refinement
import Chimaera.Fat32.Allocation
import Chimaera.Fat32.Appending
import Chimaera.Fat32.Coherence
import Chimaera.Fat32.Consistency
import Chimaera.Fat32.Cursor
import Chimaera.Fat32.Failures
import Chimaera.Fat32.Format
import Chimaera.Fat32.Freeing
import Chimaera.Fat32.Healthy
import Chimaera.Fat32.Linking
import Chimaera.Fat32.Marking
import Chimaera.Fat32.NameArrays
import Chimaera.Fat32.Placing
import Chimaera.Fat32.Readonly
import Chimaera.Fat32.Renaming
import Chimaera.Fat32.Repairs
import Chimaera.Fat32.RoundTrip
import Chimaera.Fat32.Sequential
import Chimaera.Fat32.ShortNames
import Chimaera.Fat32.Storing
import Chimaera.Fat32.Unlink
import Chimaera.Fat32.Untouched
import Chimaera.Fat32.Visible
import Chimaera.Gui.Console
import Chimaera.Gui.Drawing
import Chimaera.Metrics.Collect
import Chimaera.Panic.Elf
import Chimaera.Panic.Trace
import Chimaera.Proc.Accounts
import Chimaera.Tools.Boxed
import Chimaera.Tools.Downhill
import Chimaera.Usb.Composite
import Chimaera.Usb.Control
import Chimaera.Usb.Descriptors
import Chimaera.Usb.Fifo
import Chimaera.Usb.Keyboard
import Chimaera.Usb.Pci
import Chimaera.Usb.Periodic
import Chimaera.Usb.Pointer
import Chimaera.Usb.Schedule
import Chimaera.Usb.Timing
