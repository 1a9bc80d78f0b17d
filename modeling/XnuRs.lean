import XnuRs.Lib.Outcome
import XnuRs.Lib.Traced
import XnuRs.Lib.Bytes
import XnuRs.Lib.Caches
import XnuRs.Lib.Word
import XnuRs.Lib.Bits
import XnuRs.Lib.Span
import XnuRs.Lib.Memory
import XnuRs.Lib.Steps
import XnuRs.Lib.Simulation
import XnuRs.Lib.ByteFile
import XnuRs.Lib.ReprC
import XnuRs.Lib.AArch64
import XnuRs.Lib.A64
import XnuRs.Loader.Adt
import XnuRs.Loader.FdtParser
import XnuRs.Loader.FdtParserFacts
import XnuRs.Loader.FdtParserSound
import XnuRs.Loader.FdtParserTotal
import XnuRs.Loader.FdtTokens
import XnuRs.Loader.FdtGrammar
import XnuRs.Loader.FdtNops
import XnuRs.Loader.FdtTrail
import XnuRs.Kernel.DeviceTree
import XnuRs.Kernel.DeviceTreeFacts
import XnuRs.Kernel.DeviceTreeShape
import XnuRs.DeviceTree.RoundTrip
import XnuRs.DeviceTree.Flatten
import XnuRs.DeviceTree.Dump
import XnuRs.DeviceTree.Tiling
import XnuRs.DeviceTree.DumpComplete
import XnuRs.DeviceTree.Total
import XnuRs.Macho.Format
import XnuRs.Macho.Goblin
import XnuRs.Xtask.Convert
import XnuRs.Xtask.ConvertFacts
import XnuRs.Xtask.ConvertResults
import XnuRs.Xtask.ConvertFaults
import XnuRs.Xtask.PartitionIo
import XnuRs.Xtask.PartitionIoResults
import XnuRs.Loader.Image
import XnuRs.Loader.ImageFacts
import XnuRs.Loader.ImageResults
import XnuRs.Loader.ImageRequests
import XnuRs.Kernel.Arch.Context
import XnuRs.Kernel.Exec.Macho
import XnuRs.Kernel.Arch.Exception
import XnuRs.Kernel.Arch.ExceptionResults
import XnuRs.Kernel.Arch.UserEnter
import XnuRs.Kernel.Arch.Uart
import XnuRs.Kernel.Arch.System
import XnuRs.Kernel.Arch.Process
import XnuRs.Kernel.Arch.SystemResults
import XnuRs.Kernel.Arch.UserCode
import XnuRs.Kernel.Exec.Loader
import XnuRs.Kernel.Exec.LoaderFacts
import XnuRs.Kernel.Exec.LoaderResults
import XnuRs.Kernel.Exec.MachoResults
import XnuRs.Macho.LoadersAgree
import XnuRs.Loader.BootArgs
import XnuRs.Loader.HandOff
import XnuRs.Kernel.Start
import XnuRs.Kernel.TestUser
import XnuRs.Kernel.TestUserResults
import XnuRs.Kernel.Alloc
import XnuRs.Kernel.AllocAtomic
import XnuRs.Kernel.AllocResults
import XnuRs.Loader.HandOffFacts
import XnuRs.Boot.Fetch
import XnuRs.Boot.HandOff
import XnuRs.Boot.Hello
import XnuRs.Boot.Levels
import XnuRs.Boot.LoaderProtocol
import XnuRs.Boot.NoReturn
import XnuRs.Boot.PowerOn
import XnuRs.Boot.CacheMaintenance
import XnuRs.Boot.ArgsLayout
import XnuRs.Boot.JumpMemory
import XnuRs.Boot.Console
import XnuRs.Boot.ElfImage
import XnuRs.Boot.Entry
import XnuRs.Kernel.Util.Bitfield
import XnuRs.Xtask.Build
import XnuRs.Xtask.BuildResults
