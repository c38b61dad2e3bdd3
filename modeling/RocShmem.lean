import RocShmem.Basic
import RocShmem.Queue
import RocShmem.Comm
import RocShmem.Transport
import RocShmem.Progress
import RocShmem.Engine
import RocShmem.Inflight
import RocShmem.Quiet
import RocShmem.Ledger
import RocShmem.Signals
import RocShmem.Bitmask
import RocShmem.Team
import RocShmem.Slots
import RocShmem.Bounds
