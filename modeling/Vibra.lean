import Vibra.Fat32.TableInvariant
import Vibra.Vfs.Shadowing
import Vibra.Disk.NvmeMatching
import Vibra.Disk.BulkOnlyPairing
import Vibra.Sched.UserFaults
import Vibra.Ntfs.DamagedVolume
import Vibra.Ntfs.Listing
import Vibra.Net.RxRing
import Vibra.Input.TypeAhead
import Vibra.Input.Cancellation
import Vibra.BootLog.Account
import Vibra.Usb.Completions
import Vibra.Usb.KeyboardEvents
import Vibra.Dma.Freed
import Vibra.Fat32.DiskFull
import Vibra.Pci.Relocation
import Vibra.Net.Resolution
import Vibra.Usb.Addresses
import Vibra.Usb.Hotplug
import Vibra.Console.Shadow
import Vibra.Ext.BlockMap
import Vibra.Disk.UsbSectors
import Vibra.Disk.GptDecoding
import Vibra.Vfs.Normalizers
import Vibra.Memory.PmmSearch
import Vibra.Memory.HeapFirstFit
import Vibra.Fat32.FreeCount
import Vibra.Vfs.CopyFile
import Vibra.Sched.Sleep
import Vibra.Sched.CpuTime
import Vibra.Sched.UserProcess
import Vibra.Exfat.Streaming
import Vibra.Iso.Listing
import Vibra.Ntfs.Holes
import Vibra.Timer.Calendar
import Vibra.Input.HeldKeys
import Vibra.Edit.Lines
import Vibra.Usb.EventQueue
import Vibra.Usb.Companions
import Vibra.Net.EchoPackets
import Vibra.Net.Transmission
import Vibra.Memory.Mtrr
import Vibra.Memory.WriteCombining
import Vibra.Input.Mouse
import Vibra.Input.Escapes
import Vibra.Usb.BootReports
import Vibra.Shell.LineEditor
import Vibra.Console.BackBuffer
import Vibra.Usb.UhciControl
import Vibra.Usb.EhciReports
import Vibra.Disk.AhciCommands
import Vibra.Disk.IdeReads
import Vibra.Fat32.DamagedChains
import Vibra.Acpi.SleepType
import Vibra.Acpi.Smbios
import Vibra.Timer.Clock
import Vibra.Script.Grammar
import Vibra.Script.Stopping
import Vibra.Disk.Detection
import Vibra.Pci.Msi
import Vibra.Disk.Capacity
import Vibra.Virtio.Blocks
