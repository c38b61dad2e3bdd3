import RocShmem.Queue
import RocShmem.Comm

/-!
# The MPI transport engine

The state of `MPITransport` as the progress thread sees it, and the functions that thread runs
between two calls of `progress`: the issue functions, `quiet`, the atomics, and the `switch` of
`submitRequestsToMPI`.

`outstanding`, `waiting_quiet` and `handle->queue_descs` are vectors of `num_queues` entries;
here they are maps on all of `ℤ`, and every index the code uses on them is appended to the ghost
list `touched`, so that an index outside `[0, num_queues)` shows up there instead of being
undefined. The other ghost fields are `trace` (see `Event`) and `issued`, the request each
dispatched descriptor started. Fresh handles come from `nextRequest` (the MPI library) and
fresh buffers from `nextBuffer` (`malloc`).

HDP flushes, `MPI_Win_flush_all` and the remote memory the operations read and write are not
modelled.
-/

namespace RocShmem

/-- The state of `MPITransport` on one PE. -/
structure Engine where
  numQueues : ℕ
  /-- `my_pe`, this PE's rank in `ro_net_comm_world`. -/
  myPe : ℤ
  queue : RequestQueue
  reqVec : List Request
  reqPropVec : List RequestProperties
  outstanding : ℤ → ℤ
  /-- `waiting_quiet`: the threads waiting in `quiet`, each with, as ghost, the index of the
  descriptor it dispatched. -/
  waitingQuiet : ℤ → List (ℤ × ℕ)
  hostBarrierDone : Bool
  comms : CommCache
  nextRequest : ℕ
  nextBuffer : ℕ
  /-- Ghost: for each dispatched descriptor, in order, the handle of the request it started. -/
  issued : List (Option ℕ)
  /-- Ghost: what the engine did that others observe, in order. -/
  trace : List Event
  /-- Ghost: every index used on `outstanding`, `waiting_quiet` and `handle->queue_descs`. -/
  touched : List ℤ

/-- The transport after its constructor and `initTransport(num_queues, handle)`: the per-queue
vectors sized for `num_queues` queues, nothing queued, nothing in flight. -/
def initTransport (numQueues worldSize : ℕ) (myPe : ℤ) : Engine :=
  ⟨numQueues, myPe, .empty, [], [], fun _ => 0, fun _ => [], false, ⟨worldSize, [], 0⟩, 0, 0, [],
    [], []⟩

namespace Engine

/-- An access to index `i` of a per-queue vector. -/
def touch (s : Engine) (i : ℤ) : Engine := { s with touched := s.touched ++ [i] }

/-- `handle->queue_descs[wgId].status[threadId] = 1`. -/
def setStatus (s : Engine) (wgId threadId : ℤ) (origin : Origin) : Engine :=
  { s with trace := s.trace ++ [.status wgId threadId origin], touched := s.touched ++ [wgId] }

/-- How every nonblocking call ends: `req_prop_vec.emplace_back(...)`,
`req_vec.push_back(request)`, `outstanding[wg_id]++`. -/
def track (s : Engine) (call : MpiCall) (prop : RequestProperties) : Engine :=
  { s with reqPropVec := s.reqPropVec ++ [prop]
           reqVec := s.reqVec ++ [⟨s.nextRequest, call⟩]
           nextRequest := s.nextRequest + 1
           outstanding := Function.update s.outstanding prop.wgId (s.outstanding prop.wgId + 1)
           touched := s.touched ++ [prop.wgId] }

/-- `MPITransport::barrier`: `MPI_Ibarrier` on `ro_net_comm_world`. -/
def barrier (s : Engine) (wgId threadId : ℤ) (blocking : Bool) : Engine :=
  s.track .ibarrier ⟨threadId, wgId, blocking, 0, false⟩

/-- `MPITransport::putMem`: `MPI_Rput` of `size` bytes from `src` to `dst` on `pe`. An inline
put hands over its temporary buffer `src`, to be freed when the request completes. -/
def putMem (s : Engine) (dst src : Ptr) (size pe wgId threadId : ℤ) (blocking inlineData : Bool) :
    Engine :=
  s.track (.rput src size pe dst) ⟨threadId, wgId, blocking, src, inlineData⟩

/-- `MPITransport::getMem`: `MPI_Rget`. It increments `outstanding[wg_id]` before issuing, which
no other step can observe. -/
def getMem (s : Engine) (dst src : Ptr) (size pe wgId threadId : ℤ) (blocking : Bool) : Engine :=
  s.track (.rget dst size pe src) ⟨threadId, wgId, blocking, 0, false⟩

/-- `MPI_Iallreduce`, with `MPI_IN_PLACE` when `dst == src`. -/
def iallreduce (dst src : Ptr) (size : ℤ) (type : MpiDatatype) (op : MpiOp) (comm : Comm) :
    MpiCall :=
  if dst = src then .iallreduce none dst size type op comm
  else .iallreduce (some src) dst size type op comm

/-- `MPI_Comm_rank` and `MPI_Ibcast`: the root sends from `src`, every other rank receives into
`dst`. `MPI_Comm_rank` fails on the null communicator of a PE outside the group. -/
def ibcast (s : Engine) (dst src : Ptr) (size : ℤ) (type : MpiDatatype) (root : ℤ) (comm : Comm) :
    Except Fault MpiCall :=
  match comm.rankOf s.myPe with
  | none => .error .mpiError
  | some newRank => .ok (.ibcast (if (newRank : ℤ) = root then src else dst) size type root comm)

/-- `MPITransport::reduction`, over the active set `(start, logPstride, sizePE)`. -/
def reduction (s : Engine) (dst src : Ptr) (size wgId start logPstride sizePE : ℤ)
    (op : RocShmemOp) (type : RoNetTypes) (threadId : ℤ) (blocking : Bool) : Except Fault Engine := do
  let mpiOp ← convertOp op
  let mpiType ← convertType type
  let (comm, comms) ← createComm s.comms ⟨start, logPstride, sizePE⟩
  return { s with comms := comms }.track (iallreduce dst src size mpiType mpiOp comm)
    ⟨threadId, wgId, blocking, 0, false⟩

/-- `MPITransport::broadcast`, over the active set `(start, logPstride, sizePE)`. -/
def broadcast (s : Engine) (dst src : Ptr) (size wgId start logPstride sizePE root : ℤ)
    (type : RoNetTypes) (threadId : ℤ) (blocking : Bool) : Except Fault Engine := do
  let mpiType ← convertType type
  let (comm, comms) ← createComm s.comms ⟨start, logPstride, sizePE⟩
  let call ← s.ibcast dst src size mpiType root comm
  return { s with comms := comms }.track call ⟨threadId, wgId, blocking, 0, false⟩

/-- `MPITransport::team_reduction`, over a team's communicator. -/
def teamReduction (s : Engine) (dst src : Ptr) (size wgId : ℤ) (team : Comm) (op : RocShmemOp)
    (type : RoNetTypes) (threadId : ℤ) (blocking : Bool) : Except Fault Engine := do
  let mpiOp ← convertOp op
  let mpiType ← convertType type
  return s.track (iallreduce dst src size mpiType mpiOp team) ⟨threadId, wgId, blocking, 0, false⟩

/-- `MPITransport::team_broadcast`, over a team's communicator. -/
def teamBroadcast (s : Engine) (dst src : Ptr) (size wgId : ℤ) (team : Comm) (root : ℤ)
    (type : RoNetTypes) (threadId : ℤ) (blocking : Bool) : Except Fault Engine := do
  let mpiType ← convertType type
  let call ← s.ibcast dst src size mpiType root team
  return s.track call ⟨threadId, wgId, blocking, 0, false⟩

/-- `MPITransport::amoFOP`: `MPI_Fetch_and_op` and `MPI_Win_flush_local` complete before the
status flag is set; no request is tracked. -/
def amoFOP (s : Engine) (wgId threadId : ℤ) (op : RocShmemOp) : Except Fault Engine := do
  let _ ← getMpiOp op
  return s.setStatus wgId threadId .atomic

/-- `MPITransport::amoFCAS`: `MPI_Compare_and_swap`, completed, then the status flag. -/
def amoFCAS (s : Engine) (wgId threadId : ℤ) : Engine :=
  s.setStatus wgId threadId .atomic

/-- `MPITransport::quiet`: done at once when the workgroup has nothing in flight, otherwise the
thread waits in `waiting_quiet[wg_id]`. The descriptor being dispatched is the one after the
`issued.length` dispatched before it. -/
def quiet (s : Engine) (wgId threadId : ℤ) : Engine :=
  if s.outstanding wgId = 0 then (s.touch wgId).setStatus wgId threadId (.quiet s.issued.length)
  else { s.touch wgId with
    waitingQuiet := Function.update s.waitingQuiet wgId
      (s.waitingQuiet wgId ++ [(threadId, s.issued.length)]) }

theorem quiet_of_eq_zero {s : Engine} {w t : ℤ} (h : s.outstanding w = 0) :
    s.quiet w t = (s.touch w).setStatus w t (.quiet s.issued.length) := if_pos h

theorem quiet_of_ne_zero {s : Engine} {w t : ℤ} (h : s.outstanding w ≠ 0) :
    s.quiet w t = { s.touch w with
      waitingQuiet := Function.update s.waitingQuiet w (s.waitingQuiet w ++ [(t, s.issued.length)]) } :=
  if_neg h

/-- The `switch` of `submitRequestsToMPI` on a descriptor and its queue id. `RO_NET_P` copies
its value into a fresh `malloc`ed buffer and puts from there. -/
def dispatch (s : Engine) (e : QueueElement) (queueIdx : ℤ) : Except Fault Engine :=
  match e.type with
  | .put => .ok (s.putMem e.dst e.src e.size e.PE queueIdx e.threadId true false)
  | .p => .ok ({ s with nextBuffer := s.nextBuffer + 1 }.putMem e.dst s.nextBuffer e.size e.PE
      queueIdx e.threadId true true)
  | .get => .ok (s.getMem e.dst e.src e.size e.PE queueIdx e.threadId true)
  | .putNbi => .ok (s.putMem e.dst e.src e.size e.PE queueIdx e.threadId false false)
  | .getNbi => .ok (s.getMem e.dst e.src e.size e.PE queueIdx e.threadId false)
  | .amoFop => s.amoFOP queueIdx e.threadId e.op
  | .amoFcas => .ok (s.amoFCAS queueIdx e.threadId)
  | .teamToAll => s.teamReduction e.dst e.src e.size queueIdx e.teamComm e.op e.datatype
      e.threadId true
  | .toAll => s.reduction e.dst e.src e.size queueIdx e.PE e.logPEStride e.PESize e.op
      e.datatype e.threadId true
  | .teamBroadcast => s.teamBroadcast e.dst e.src e.size queueIdx e.teamComm e.PERoot e.datatype
      e.threadId true
  | .broadcast => s.broadcast e.dst e.src e.size queueIdx e.PE e.logPEStride e.PESize e.PERoot
      e.datatype e.threadId true
  | .barrierAll => .ok (s.barrier queueIdx e.threadId true)
  | .fence | .quiet | .finalize => .ok (s.quiet queueIdx e.threadId)
  | .other _ => .error (.exit "Invalid GPU Packet received, exiting....")

/-- `submitRequestsToMPI` after its unlocked test: pop both fronts under the lock, dispatch, and
record which request the dispatch started. -/
def submitRequestsToMPI (s : Engine) : Except Fault Engine :=
  match s.queue.pop with
  | none => .error .undefined
  | some ((e, w), Q) => do
    let s' ← dispatch { s with queue := Q } e w
    return { s' with issued := s'.issued ++ [if e.type.issuesRequest then some s.nextRequest else none] }

/-- `numOutstandingRequests`. -/
def numOutstandingRequests (s : Engine) : ℕ := s.reqVec.length + s.queue.q.length

end Engine

end RocShmem
