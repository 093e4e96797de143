import MPStuBS.Lib.Run
import MPStuBS.Lib.TicketOrder
import MPStuBS.Lib.LinkChain
import MPStuBS.Object.Queue
import MPStuBS.Object.QueueRefinement
import MPStuBS.Object.QueueFamily
import MPStuBS.Machine.Ticketlock
import MPStuBS.Thread.Scheduler
import MPStuBS.Guard.Kernel
import MPStuBS.Guard.Multiprocessor
import MPStuBS.Guard.Phase
import MPStuBS.Guard.Stack
import MPStuBS.Guard.MutualExclusion
import MPStuBS.Guard.GateQueues
import MPStuBS.Guard.PendingGates
import MPStuBS.Guard.SchedulerCalls
import MPStuBS.Guard.DirectPath
import MPStuBS.Thread.Runnable
import MPStuBS.Guard.HaltedCpu
import MPStuBS.Thread.KillFinal
import MPStuBS.Thread.ReadyList
import MPStuBS.Thread.Placement
import MPStuBS.Machine.ApBoot
import MPStuBS.Machine.BootHandshake
import MPStuBS.Machine.BootAnswers
import MPStuBS.Machine.LockUsers
import MPStuBS.Guard.Nesting
import MPStuBS.Thread.RoundRobin
import MPStuBS.Lib.Loop
import MPStuBS.Machine.CgaScreen
import MPStuBS.Machine.CgaPrint
import MPStuBS.Machine.CgaCells
import MPStuBS.Machine.CgaWindows
import MPStuBS.Machine.CgaSheet
import MPStuBS.Object.Strbuf
import MPStuBS.Device.CgaStream
import MPStuBS.Debug.InterruptedOutput
import MPStuBS.Machine.Key
import MPStuBS.Machine.KeyDecoder
import MPStuBS.Machine.KeyModifiers
import MPStuBS.Machine.SystemConfig
import MPStuBS.Machine.MpTable
import MPStuBS.Machine.MpListing
import MPStuBS.Machine.MpDetection
import MPStuBS.Main.StartUp
import MPStuBS.Main.CpuIds
import MPStuBS.Main.FifthCpu
import MPStuBS.Device.Watch
import MPStuBS.Lib.Numeral
import MPStuBS.Object.OStream
import MPStuBS.Object.BaseManipulators
import MPStuBS.Object.BBuffer
import MPStuBS.Main.Barrier
import MPStuBS.Machine.Acpi
import MPStuBS.Machine.MadtListing
import MPStuBS.Machine.InvalidTables
import MPStuBS.Lib.X86
import MPStuBS.Machine.IrqEntry
import MPStuBS.Machine.Toc
import MPStuBS.Thread.ContextSwitch
import MPStuBS.Device.WindupHistory
import MPStuBS.Thread.ActiveThreads
import MPStuBS.Thread.KillTarget
import MPStuBS.Device.StreamClasses
import MPStuBS.Machine.CgaTab
import MPStuBS.Machine.KeyTables
import MPStuBS.Machine.KeyLeds
import MPStuBS.Device.Keyboard
import MPStuBS.Machine.MpEntries
import MPStuBS.Machine.IrqMap
import MPStuBS.Object.RemovedItems
import MPStuBS.Machine.SystemType
import MPStuBS.Lib.Logged
import MPStuBS.Machine.RsdpSearch
import MPStuBS.Machine.TableAccesses
import MPStuBS.Machine.MadtAccesses
import MPStuBS.Machine.OverrideStores
import MPStuBS.Guard.UnhandledInterrupts
import MPStuBS.Guard.EndOfInterrupt
import MPStuBS.Lib.Simulation
import MPStuBS.Thread.LoopBounds
import MPStuBS.Guard.OperationPoints
import MPStuBS.Guard.GuardedOperations
import MPStuBS.Guard.GateMark
import MPStuBS.Guard.FairRuns
import MPStuBS.Guard.QueuedEpilogues
import MPStuBS.Lib.BitLayout
import MPStuBS.Machine.IoApic
import MPStuBS.Machine.Redirection
import MPStuBS.Machine.LapicCalls
import MPStuBS.Machine.LogicalIds
import MPStuBS.Machine.PinDelivery
import MPStuBS.Main.DeviceSetup
import MPStuBS.Machine.KeyBytes
import MPStuBS.Machine.KeyWaits
import MPStuBS.Main.KillInterrupt
import MPStuBS.Machine.Descriptors
