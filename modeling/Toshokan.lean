import Toshokan.Lib.Sched
import Toshokan.Lib.Rounds
import Toshokan.Lib.StoreBuffer
import Toshokan.Offload.Asm
import Toshokan.Offload.Machine
import Toshokan.Offload.Serial
import Toshokan.Offload.Stage
import Toshokan.Offload.Step
import Toshokan.Offload.Keep
import Toshokan.Offload.Once
import Toshokan.Offload.Progress
import Toshokan.Offload.Rank
import Toshokan.Offload.Fair
import Toshokan.Offload.Tso
import Toshokan.Offload.TsoPhase
import Toshokan.Offload.TsoExec
import Toshokan.Offload.TsoRefine
import Toshokan.Offload.Flat
import Toshokan.Friend.Init
import Toshokan.Friend.Stop
import Toshokan.Friend.Ctors
import Toshokan.Friend.Stack
import Toshokan.Hakase.ElfLoader
import Toshokan.Hakase.Deploy
import Toshokan.Lib.Paging
import Toshokan.FriendLoader.CallInterface
import Toshokan.Hakase.Process
import Toshokan.FriendLoader.Window
import Toshokan.Hakase.Loader16
import Toshokan.Hakase.PageTables
import Toshokan.Hakase.Unmapped
import Toshokan.Friend.Signal
import Toshokan.FriendLoader.CpuDevice
import Toshokan.FriendLoader.Report
import Toshokan.Hakase.Boot
import Toshokan.FriendLoader.Module
import Toshokan.FriendLoader.Load
import Toshokan.Hakase.BootLoop
import Toshokan.Hakase.Walk
import Toshokan.Hakase.Effect
import Toshokan.Hakase.Setup
import Toshokan.Hakase.FreshStart
import Toshokan.Lib.X86
import Toshokan.Hakase.FriendBoot16
import Toshokan.Hakase.Trampoline
import Toshokan.Hakase.Cores
import Toshokan.Hakase.BootCores
import Toshokan.Session.Run
import Toshokan.Session.Ends
import Toshokan.Session.Exit
import Toshokan.Session.Verdict
import Toshokan.Hakase.Handshake
import Toshokan.Hakase.Lifecycle
import Toshokan.Lib.Tlb
import Toshokan.Tutorial.Mapping
import Toshokan.Tutorial.CopyOnWrite
