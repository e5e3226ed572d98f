import C906Firmware.Interaction.Prog
import C906Firmware.Interaction.Schedule
import C906Firmware.Interaction.Outline
import C906Firmware.Interaction.Preempt
import C906Firmware.Interaction.Run
import C906Firmware.Interaction.Simulate
import C906Firmware.Interaction.Nested
import C906Firmware.Interaction.Interpret
import C906Firmware.Model.Access
import C906Firmware.Model.Mailbox
import C906Firmware.Mailbox.RxChannel
import C906Firmware.Mailbox.PollOutline
import C906Firmware.Mailbox.Lossless
import C906Firmware.Mailbox.Preempted
import C906Firmware.Mailbox.Transmit
import C906Firmware.Model.Kernel
import C906Firmware.Model.SharedMemory
import C906Firmware.Model.Virtqueue
import C906Firmware.Model.Rpmsg
import C906Firmware.Model.Footprint
import C906Firmware.Model.Platform
import C906Firmware.Model.Init
import C906Firmware.Mailbox.PollFrame
import C906Firmware.Control.State
import C906Firmware.Control.TrapMask
import C906Firmware.Control.Reentry
import C906Firmware.Control.InitOrder
import C906Firmware.Rpmsg.Notified
import C906Firmware.Model.Timer
import C906Firmware.Timer.TickGrid
import C906Firmware.Model.Heap
import C906Firmware.Heap.Break
import C906Firmware.Heap.Spans
import C906Firmware.Heap.LittleEndian
import C906Firmware.Model.Heap4
import C906Firmware.Heap.FreeList
import C906Firmware.Heap.Allocation
import C906Firmware.Heap.Sessions
import C906Firmware.Heap.Services
import C906Firmware.Control.Sections
import C906Firmware.Model.Irq
import C906Firmware.Irq.Lines
import C906Firmware.Irq.Agreement
import C906Firmware.Irq.Service
import C906Firmware.Irq.Interleaved
import C906Firmware.Irq.Firmware
import C906Firmware.Model.Region
import C906Firmware.Shmem.Translation
import C906Firmware.Model.Shmem
import C906Firmware.Shmem.Blocks
import C906Firmware.Model.Cache
import C906Firmware.Cache.WriteBack
import C906Firmware.Cache.LineLoop
import C906Firmware.Cache.Maintenance
import C906Firmware.Cache.Tagged
import C906Firmware.Exchange.Desk
import C906Firmware.Exchange.Rings
import C906Firmware.Exchange.Queues
import C906Firmware.Exchange.Blocks
import C906Firmware.Exchange.Sending
import C906Firmware.Exchange.Receiving
import C906Firmware.Exchange.World
import C906Firmware.Exchange.Books
import C906Firmware.Exchange.Simulation
import C906Firmware.Exchange.Opening
import C906Firmware.Exchange.Publication
import C906Firmware.Exchange.Echo
import C906Firmware.Exchange.Reception
import C906Firmware.Model.Uart
import C906Firmware.Uart.Sending
import C906Firmware.Uart.Console
import C906Firmware.Uart.Baudrate
import C906Firmware.Uart.Divisor
import C906Firmware.Lists.Links
import C906Firmware.Model.Mappings
import C906Firmware.Remoteproc.Mapped
import C906Firmware.Remoteproc.Removal
import C906Firmware.Lists.Chains
import C906Firmware.Lists.Lanes
import C906Firmware.Lists.Loans
import C906Firmware.Model.Vring
import C906Firmware.Virtqueue.Accesses
import C906Firmware.Virtqueue.Pool
import C906Firmware.Virtqueue.Traffic
import C906Firmware.Virtqueue.Runs
import C906Firmware.Virtqueue.Wakeups
