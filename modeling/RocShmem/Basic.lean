import Mathlib.Data.List.Basic

/-!
# Reverse-offload transport: requests and their bookkeeping

The host side of the reverse-offload backend (`transport.cpp`) receives `queue_element_t`
descriptors posted by GPU workgroups and turns each into an MPI call.

* `RoNetCmd`, `QueueElement`: a descriptor as a workgroup posts it;
* `RocShmemOp`, `RoNetTypes` and the conversions `convertOp`, `convertType`, `getMpiOp`;
* `Comm`: an MPI communicator, with its members in communicator-rank order;
* `MpiCall`, `Request`: a nonblocking MPI operation and the handle that tracks it;
* `RequestProperties`: the entry kept beside each handle in `req_prop_vec`;
* `Fault`: how a call ends the process instead of returning;
* `Event`: writes to the device-visible status flags, frees of inline buffers, and the
  completions `MPI_Testsome` reports, in the order the engine performs them.

Pointers are addresses (`Ptr := ℕ`); the memory they point to is not modelled.
-/

namespace RocShmem

/-- A host or device address, or a value carried in a pointer-sized field. -/
abbrev Ptr := ℕ

/-- `ro_net_cmds`, the field `type` of a descriptor; `other` is any value that the `switch` of
`submitRequestsToMPI` does not list. -/
inductive RoNetCmd
  | put | p | get | putNbi | getNbi | amoFop | amoFcas | teamToAll | toAll
  | teamBroadcast | broadcast | barrierAll | fence | quiet | finalize
  | other (code : ℕ)
  deriving DecidableEq, Repr

/-- `ROC_SHMEM_OP` as read from a descriptor; `other` is a value outside the enumeration. -/
inductive RocShmemOp
  | sum | max | min | prod | and | or | xor
  | other (code : ℤ)
  deriving DecidableEq, Repr

/-- `ro_net_types` as read from a descriptor; `other` is a value outside the enumeration. -/
inductive RoNetTypes
  | float | double | int | long | longLong | short | longDouble
  | other (code : ℤ)
  deriving DecidableEq, Repr

/-- The MPI reduce operators the transport uses. -/
inductive MpiOp
  | sum | max | min | prod | band | bor | bxor
  deriving DecidableEq, Repr

/-- The MPI datatypes the transport uses. -/
inductive MpiDatatype
  | float | double | int | long | longLong | short | longDouble
  deriving DecidableEq, Repr

/-- How a call ends the process: `exit` is the code's own `fprintf(stderr, ...); exit(-1)`
(and `NET_CHECK`), `mpiError` an MPI call that fails under the default fatal error handler,
`undefined` undefined behaviour of the C++ code. -/
inductive Fault
  | exit (message : String)
  | mpiError
  | undefined
  deriving DecidableEq, Repr

/-- `convertOp`. -/
def convertOp : RocShmemOp → Except Fault MpiOp
  | .sum => .ok .sum
  | .max => .ok .max
  | .min => .ok .min
  | .prod => .ok .prod
  | .and => .ok .band
  | .or => .ok .bor
  | .xor => .ok .bxor
  | .other code => .error (.exit ("Unknown ROC_SHMEM op MPI conversion " ++ toString code))

/-- `convertType`. -/
def convertType : RoNetTypes → Except Fault MpiDatatype
  | .float => .ok .float
  | .double => .ok .double
  | .int => .ok .int
  | .long => .ok .long
  | .longLong => .ok .longLong
  | .short => .ok .short
  | .longDouble => .ok .longDouble
  | .other code => .error (.exit ("Unknown ROC_SHMEM type MPI conversion " ++ toString code))

/-- `MPITransport::get_mpi_op`: its `default` case falls off the end of the function without a
return value, which is undefined behaviour. -/
def getMpiOp : RocShmemOp → Except Fault MpiOp
  | .sum => .ok .sum
  | .max => .ok .max
  | .min => .ok .min
  | .prod => .ok .prod
  | .and => .ok .band
  | .or => .ok .bor
  | .xor => .ok .bxor
  | .other _ => .error .undefined

/-- An MPI communicator: its handle and its members, as world ranks in communicator-rank
order. -/
structure Comm where
  handle : ℕ
  ranks : List ℤ
  deriving DecidableEq, Repr, Inhabited

/-- `MPI_Comm_rank`: the rank of world rank `pe` in `c`, `none` when `pe` is not a member. -/
def Comm.rankOf (c : Comm) (pe : ℤ) : Option ℕ := c.ranks.indexOf? pe

/-- `queue_element_t`, the fields the engine reads. For `RO_NET_P` the field `src` holds the
value itself; for `RO_NET_AMO_FCAS` the field `pWrk` holds the compare value. -/
structure QueueElement where
  type : RoNetCmd
  PE : ℤ
  size : ℤ
  dst : Ptr
  src : Ptr
  threadId : ℤ
  op : RocShmemOp
  datatype : RoNetTypes
  logPEStride : ℤ
  PESize : ℤ
  PERoot : ℤ
  pWrk : ℤ
  teamComm : Comm
  deriving DecidableEq, Repr

/-- The descriptors whose dispatch starts a nonblocking MPI operation. -/
def RoNetCmd.issuesRequest : RoNetCmd → Bool
  | .put | .p | .get | .putNbi | .getNbi | .teamToAll | .toAll
  | .teamBroadcast | .broadcast | .barrierAll => true
  | _ => false

/-- The descriptors dispatched to `quiet`. -/
def RoNetCmd.isQuiet : RoNetCmd → Bool
  | .fence | .quiet | .finalize => true
  | _ => false

theorem RoNetCmd.issuesRequest_of_isQuiet {c : RoNetCmd} (h : c.isQuiet = true) :
    c.issuesRequest = false := by
  cases c <;> first | rfl | cases h

/-- A nonblocking MPI operation as the engine starts it. A `put` or `get` names the remote
address whose heap-window displacement (`get_offset`) it targets; `sendbuf = none` is
`MPI_IN_PLACE`. -/
inductive MpiCall
  | rput (src : Ptr) (size pe : ℤ) (dst : Ptr)
  | rget (dst : Ptr) (size pe : ℤ) (src : Ptr)
  | ibarrier
  | iallreduce (sendbuf : Option Ptr) (recvbuf : Ptr) (count : ℤ) (type : MpiDatatype)
      (op : MpiOp) (comm : Comm)
  | ibcast (buffer : Ptr) (count : ℤ) (type : MpiDatatype) (root : ℤ) (comm : Comm)
  deriving DecidableEq, Repr, Inhabited

/-- An `MPI_Request`: a fresh handle, and the operation it tracks. -/
structure Request where
  id : ℕ
  call : MpiCall
  deriving DecidableEq, Repr, Inhabited

/-- `RequestProperties`: who issued a request, whether the issuer waits for it, and the inline
buffer to free when it completes. -/
structure RequestProperties where
  threadId : ℤ
  wgId : ℤ
  blocking : Bool
  src : Ptr
  inlineData : Bool
  deriving DecidableEq, Repr, Inhabited

/-- The code place that sets a status flag. For `quiet` and the `waiting_quiet` loop of
`progress` it carries, as ghost, the index (in dispatch order) of the fence, quiet or finalize
descriptor the flag answers. -/
inductive Origin
  | completion | atomic
  | quiet (desc : ℕ)
  | wake (desc : ℕ)
  deriving DecidableEq, Repr

/-- What the engine does that the rest of the system observes. -/
inductive Event
  /-- `handle->queue_descs[wgId].status[threadId] = 1`. -/
  | status (wgId threadId : ℤ) (origin : Origin)
  /-- `free(src)` of an inline buffer. -/
  | free (p : Ptr)
  /-- `MPI_Testsome` reported the request with this handle complete. -/
  | reported (id : ℕ)
  deriving DecidableEq, Repr

/-- The status codes of the team calls. -/
inductive Status
  | success | tooManyTeams
  deriving DecidableEq, Repr

end RocShmem
