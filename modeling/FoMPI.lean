import FoMPI.Foundation.Transition
import FoMPI.Foundation.Ledger
import FoMPI.Foundation.Counter
import FoMPI.Foundation.Blocks
import FoMPI.Foundation.Ring
import FoMPI.Foundation.Fifo
import FoMPI.Foundation.Registry
import FoMPI.Foundation.Links
import FoMPI.Foundation.DoubleLinks
import FoMPI.Foundation.Footprint
import FoMPI.Foundation.Strides
import FoMPI.Foundation.Abstraction
import FoMPI.Foundation.Bytes
import FoMPI.Foundation.Typemap
import FoMPI.Foundation.Commutation
import FoMPI.Foundation.Conversions
import FoMPI.Foundation.Pages
import FoMPI.Foundation.FreeList
import FoMPI.Foundation.Splits
import FoMPI.Foundation.Linearizability
import FoMPI.Foundation.OneSided
import FoMPI.WinLock.Safety
import FoMPI.WinLock.Calls
import FoMPI.Dcache.Superposition
import FoMPI.Dcache.Coverage
import FoMPI.Dcache.Unequal
import FoMPI.XpmemQueue.Capacity
import FoMPI.Notif.Matching
import FoMPI.Notif.Identity
import FoMPI.Req.Activation
import FoMPI.Pscw.Safety
import FoMPI.Accumulate.NoLostUpdate
import FoMPI.RmaNotify.Order
import FoMPI.RmaNotify.Empty
import FoMPI.Dynamic.Currency
import FoMPI.Dynamic.Detach
import FoMPI.Dynamic.Registrations
import FoMPI.Comm.Inside
import FoMPI.Comm.Atomics
import FoMPI.Comm.Partition
import FoMPI.Combine.Unsupported
import FoMPI.Combine.Fetching
import FoMPI.Combine.Agreement
import FoMPI.Combine.Codes
import FoMPI.Combine.Commute
import FoMPI.Combine.Pairs
import FoMPI.Combine.Dynamic
import FoMPI.Flush.Net
import FoMPI.Flush.Completion
import FoMPI.Free.Safety
import FoMPI.NotifLock.Exclusion
import FoMPI.Inline.RoundTrip
import FoMPI.Pscw.Widths
import FoMPI.Pool.Safety
import FoMPI.Uq.Refinement
import FoMPI.Posts.Alignment
import FoMPI.Posts.Handles
import FoMPI.Posts.Sizes
import FoMPI.RmaRequest.Usable
import FoMPI.RmaRequest.Completed
import FoMPI.Window.Onnode
import FoMPI.Window.Mapping
import FoMPI.Window.Names
import FoMPI.Memcpy.PlainCopy
import FoMPI.Fortran.Aliasing
import FoMPI.BasicType.Homogeneous
import FoMPI.BasicType.Contents
import FoMPI.BasicType.Balance
import FoMPI.Atomic.Linearizable
import FoMPI.Epoch.Passive
import FoMPI.Epoch.Active
import FoMPI.Epoch.Fence
import FoMPI.XpmemQueue.Locked
import FoMPI.XpmemQueue.Overshoot
import FoMPI.NotifLock.Fairness
import FoMPI.WinLock.Grants
import FoMPI.Flush.Return
import FoMPI.Mpitypes.Layout
import FoMPI.Mpitypes.Footprint
import FoMPI.Mpitypes.Typemap
import FoMPI.Mpitypes.Memcpy
import FoMPI.Mpitypes.Subarray
import FoMPI.Mpitypes.Darray
