import LugalOS.Llp.Handshake
import LugalOS.P9.Interleaving
import LugalOS.Fat32.Listing
import LugalOS.Fat32.Reading
import LugalOS.Fat32.Alloc
import LugalOS.Fat32.Table
import LugalOS.P9.Subtrees
import LugalOS.P9.Aliases
import LugalOS.Fat32.Resolve
import LugalOS.Fat32.Scan
import LugalOS.Fat32.Mount
import LugalOS.Elf.Containment
import LugalOS.Elf.Format
import LugalOS.P9.Authentication
import LugalOS.P9.Policies
import LugalOS.P9.Negotiation
import LugalOS.Sched.Reaping
import LugalOS.Lib.Turn
import LugalOS.Chan.Owner
import LugalOS.Spartan.Sandbox
import LugalOS.Tcp.Receive
import LugalOS.Tcp.Send
import LugalOS.Tcp.Handles
import LugalOS.Dhcp.Leases
import LugalOS.Palloc.Allocator
import LugalOS.P9.Roundtrip
import LugalOS.P9.Wire
import LugalOS.Mqtt.Chunks
import LugalOS.Httpd.Reassembly
import LugalOS.P9.GrantLaw
import LugalOS.Dns.Resolver
import LugalOS.Vfs.Interleaving
import LugalOS.Lib.Ring
import LugalOS.Klog.Ring
import LugalOS.Klog.Records
import LugalOS.Klog.Reading
import LugalOS.Klog.Stream
import LugalOS.Lib.Buddy
import LugalOS.Balloc.Blocks
import LugalOS.Balloc.Allocator
import LugalOS.Balloc.Serving
import LugalOS.Der.Reader
import LugalOS.Der.Elements
import LugalOS.Der.Sequence
import LugalOS.Der.Agreement
import LugalOS.Lib.Marking
import LugalOS.Lib.Links
import LugalOS.Lisp.Heap
import LugalOS.Lisp.Marked
import LugalOS.Lisp.Swept
import LugalOS.Lisp.Collected
import LugalOS.Time.Clock
import LugalOS.Ota.BootRecord
import LugalOS.Kobj.Waiters
import LugalOS.Kobj.Handles
import LugalOS.Kobj.Objects
import LugalOS.Kobj.Lifetimes
import LugalOS.Kobj.Waiting
import LugalOS.Kobj.Semaphores
import LugalOS.Kobj.Mutexes
import LugalOS.Kobj.Events
import LugalOS.Kobj.Queues
import LugalOS.Kobj.Sharing
import LugalOS.Lib.Deque
import LugalOS.Kobj.Delivery
import LugalOS.Kobj.Synch
import LugalOS.Kobj.Timers
import LugalOS.Kobj.TimerWait
import LugalOS.Fat32.Format
import LugalOS.Lib.Line
import LugalOS.Chan.WaitQueue
import LugalOS.Fat32.Shown
import LugalOS.Fat32.Addressing
import LugalOS.Fat32.Chains
import LugalOS.Fat32.Checking
import LugalOS.Fat32.Oracle
import LugalOS.Fat32.Spared
import LugalOS.Fat32.Created
import LugalOS.Fat32.Growing
import LugalOS.Fat32.Paths
import LugalOS.Fat32.Creating
import LugalOS.Fat32.Contents
import LugalOS.Fat32.Counting
import LugalOS.Fat32.Editing
import LugalOS.Lib.Walk
import LugalOS.Lock.Waitfor
import LugalOS.Lib.Precedence
import LugalOS.Lock.Order
import LugalOS.Lock.Inversions
import LugalOS.Sched.Wakeup
import LugalOS.Sched.Straying
import LugalOS.P9.Server
import LugalOS.Lib.Framing
import LugalOS.Llp.Serial
import LugalOS.Llp.Framed
import LugalOS.P9.Pwrite
import LugalOS.Lib.Paging
import LugalOS.P9.DirStream
import LugalOS.Http.Response
import LugalOS.Http.Chunked
import LugalOS.Tcp.Answer
import LugalOS.Tcp.Window
import LugalOS.Der.Spans
import LugalOS.Palloc.Owners
import LugalOS.Palloc.Report
import LugalOS.Der.Base64
import LugalOS.Der.Pem
import LugalOS.Lib.Limbs
import LugalOS.Lib.Newton
import LugalOS.Lisp.Bignum
import LugalOS.Lisp.Numbers
import LugalOS.Lisp.Isqrt
import LugalOS.Lib.Decimal
import LugalOS.Lisp.Reals
import LugalOS.Lisp.ToDecimal
import LugalOS.Lib.Matching
import LugalOS.Lisp.Match
import LugalOS.Lib.Tiling
import LugalOS.Lib.Doubly
import LugalOS.Uheap.Heap
import LugalOS.Uheap.Layout
import LugalOS.Uheap.FreeLists
import LugalOS.Uheap.Allocating
import LugalOS.Uheap.Fit
import LugalOS.Uheap.Freeing
import LugalOS.Uheap.Realloc
import LugalOS.Uheap.Reclaiming
import LugalOS.Uheap.Checking
import LugalOS.Time.Civil
import LugalOS.Time.Timezone
import LugalOS.Lib.Scanner
import LugalOS.Lib.Switching
import LugalOS.Time.Grammar
import LugalOS.Time.Seasons
import LugalOS.Time.LocalTime
import LugalOS.LineEditor.State
import LugalOS.LineEditor.Text
import LugalOS.LineEditor.Keys
