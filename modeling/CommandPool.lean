import CommandPool.Arena
import CommandPool.Guest.Timeline
import CommandPool.Leases
import CommandPool.Ring.Grants
import CommandPool.Pool
import CommandPool.Session.Basic
import CommandPool.Session.Retirement
import CommandPool.Session.Buffers
import CommandPool.Session.DisplayLists
import CommandPool.Proofs.Guest.Address
import CommandPool.Proofs.Ring.Client
import CommandPool.Proofs.OpenBuffer
import CommandPool.Proofs.Session.Delivery
import CommandPool.Proofs.Ring.Misuse
import CommandPool.Proofs.Ring.Progress
import CommandPool.Proofs.Ring.Recognition
import CommandPool.Proofs.Session.Account
import CommandPool.Proofs.Session.Stock
import CommandPool.Proofs.Session.StockCalls
import CommandPool.Proofs.Session.Waits
import CommandPool.Proofs.Session.Backpressure
import CommandPool.Proofs.Arena
import CommandPool.Proofs.Padding
import CommandPool.Proofs.Session.Conservation
import CommandPool.Proofs.Session.Recording
import CommandPool.Proofs.Ring.FreeRuns
import CommandPool.Proofs.Session.StowageCalls
import CommandPool.Proofs.Session.Room
import CommandPool.Proofs.Session.Asides
import CommandPool.Proofs.Ring.Regrant
import CommandPool.Proofs.Session.HandIns
import CommandPool.Proofs.Session.Ample
import CommandPool.Proofs.Session.EmptyFlush
import CommandPool.Proofs.Session.Shutdown
import CommandPool.Proofs.Session.Renewal
import CommandPool.Proofs.Ring.Relocation
import CommandPool.Proofs.Session.Writer
import CommandPool.Proofs.Overflow
import CommandPool.Proofs.Ring.OrderErrors
import CommandPool.Proofs.LinkTable
import CommandPool.Proofs.Guest.WordStore
