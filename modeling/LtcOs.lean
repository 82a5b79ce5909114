import LtcOs.Lib.Request
import LtcOs.Lib.Memory
import LtcOs.Lib.Bits
import LtcOs.Murmur3
import LtcOs.Flash
import LtcOs.FlashDevice
import LtcOs.Updater
import LtcOs.UpdaterSpec
import LtcOs.UpdaterDelivery
import LtcOs.UpdaterSafety
import LtcOs.UpdaterBounds
import LtcOs.UpdaterHeader
import LtcOs.FlashFaults
import LtcOs.FlashWear
import LtcOs.Mac
import LtcOs.MacFraming
import LtcOs.Link
import LtcOs.Upload
import LtcOs.DemodLoop
import LtcOs.DemodRate
import LtcOs.DoubleBuffer
import LtcOs.Lib.Exact
import LtcOs.DemodFilter
import LtcOs.Lib.Ring
import LtcOs.Lib.Chain
import LtcOs.Kernel.VirtualTimers
import LtcOs.Kernel.TicklessTimers
import LtcOs.Kernel.Heap
import LtcOs.Kernel.CoreMemory
import LtcOs.Lib.PrioList
import LtcOs.Kernel.Core
import LtcOs.Kernel.Scheduler
import LtcOs.Lib.Waiting
import LtcOs.Kernel.Mutex
import LtcOs.Kernel.MutexInv
import LtcOs.Kernel.PriorityInheritance
import LtcOs.Lib.WaitFor
import LtcOs.Kernel.LockOrder
import LtcOs.Kernel.HandOff
import LtcOs.Kernel.Effect
import LtcOs.Kernel.Semaphore
import LtcOs.Kernel.Timeout
import LtcOs.Lib.Circular
import LtcOs.Lib.Answers
import LtcOs.Kernel.Callers
import LtcOs.Kernel.IoQueue
import LtcOs.Kernel.Serial
import LtcOs.Kernel.Supply
import LtcOs.Kernel.Mailbox
import LtcOs.Lib.Mask
import LtcOs.Kernel.Events
import LtcOs.Kernel.EventFlags
import LtcOs.MacSafety
import LtcOs.MacResync
import LtcOs.Lib.Slots
import LtcOs.ArduinoTimers
import LtcOs.ArduinoCallbacks
import LtcOs.ArduinoPins
import LtcOs.ArduinoProtection
import LtcOs.ArduinoAliases
import LtcOs.ArduinoPwm
import LtcOs.ArduinoTone
import LtcOs.ArduinoMath
import LtcOs.Kernel.BufferQueue
import LtcOs.Kernel.OutputBuffers
import LtcOs.Lib.Rendezvous
import LtcOs.Kernel.Messages
import LtcOs.Lib.Lifetime
import LtcOs.Kernel.Threads
import LtcOs.Kernel.ThreadRefs
import LtcOs.Kernel.ThreadLifetime
import LtcOs.Kernel.Registry
import LtcOs.Lib.SharedLinks
import LtcOs.Kernel.ThreadQueues
import LtcOs.Kernel.Integrity
import LtcOs.Kernel.Rt
import LtcOs.Kernel.StrictPriority
import LtcOs.Kernel.Moves
import LtcOs.Lib.Share
import LtcOs.Kernel.RoundRobin
import LtcOs.Kernel.Wakeup
import LtcOs.Kernel.CondVars
import LtcOs.Kernel.SetPriority
import LtcOs.I2c
import LtcOs.I2cTransfer
import LtcOs.Lib.Numeral
import LtcOs.Itoa
import LtcOs.Qfpio
import LtcOs.Printf
import LtcOs.PrintfText
import LtcOs.ArduinoTime
import LtcOs.AppHeap
import LtcOs.Lib.Copy
import LtcOs.Aeabi
import LtcOs.Lib.ThreeWay
import LtcOs.QuadMath
import LtcOs.Lib.Scan
import LtcOs.I2cFrequency
import LtcOs.Lib.Thumb
import LtcOs.Ws2812b
import LtcOs.Kernel.PortSwitch
