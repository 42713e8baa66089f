import Afterburner.Wedge.PicDelivery
import Afterburner.Wedge.PicEoi
import Afterburner.Resourcemon.InitMm
import Afterburner.DriverReuse.NetRuns
import Afterburner.Wedge.RewriteExact
import Afterburner.Wedge.IdeReadBack
import Afterburner.Wedge.EoiRouting
import Afterburner.Resourcemon.DevOwners
import Afterburner.DriverReuse.BlockIrq
import Afterburner.DriverReuse.BlockRefuse
import Afterburner.Wedge.HwirqSets
import Afterburner.Wedge.Migration
import Afterburner.Wedge.PicDiscipline
import Afterburner.Resourcemon.IrqOwners
import Afterburner.Wedge.Pci
import Afterburner.Wedge.XenLinkRuns
import Afterburner.Wedge.ConsoleRx
import Afterburner.Wedge.UserUtcb
import Afterburner.DriverNative.E1000TxRuns
import Afterburner.Wedge.PatchupGone
import Afterburner.Wedge.PortIo
import Afterburner.Wedge.SegMoves
import Afterburner.Wedge.SegRegMoves
import Afterburner.Resourcemon.Aliases
import Afterburner.Resourcemon.Bitmap
import Afterburner.Resourcemon.SizeOption
import Afterburner.Resourcemon.Translation
import Afterburner.Wedge.BitAllocate
import Afterburner.Wedge.Flags
import Afterburner.Wedge.IoapicCoherence
import Afterburner.Wedge.LapicHighest
import Afterburner.Wedge.ApicTopology
import Afterburner.Wedge.XenMmop
import Afterburner.Wedge.CreateThread
import Afterburner.Wedge.AddressSpaces
import Afterburner.DriverReuse.BlockRegister
import Afterburner.DriverReuse.NetReceive
import Afterburner.DriverReuse.PciServer
import Afterburner.DriverReuse.PciCommands
import Afterburner.DriverNative.E1000Hostile
import Afterburner.DriverNative.E1000Ifaces
import Afterburner.DriverNative.RxPackets
import Afterburner.Wedge.IdeBuffer
import Afterburner.Wedge.IdeDma
import Afterburner.Wedge.StringIo
import Afterburner.Wedge.Dp83820
import Afterburner.Wedge.Serial8250
import Afterburner.Wedge.Rtc
import Afterburner.Wedge.RtcPeriodic
import Afterburner.Wedge.Memmove
import Afterburner.Resourcemon.Lottery
import Afterburner.Resourcemon.PowerBudget
import Afterburner.Resourcemon.DiskThrottle
import Afterburner.DriverReuse.BlockCache
