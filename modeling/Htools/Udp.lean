import Htools.Machine
import Mathlib.Algebra.Order.Group.Nat
import Mathlib.Algebra.Ring.Int.Defs
import Mathlib.Tactic.Common

/-!
Receiving datagrams (`hutils/src/udp.c`). `receive_datagram` waits for a socket and
another descriptor, and puts together its result from what the system calls
return. It keeps its contract exactly if no read of the other descriptor fails and
no datagram has 2^31 bytes or more (`contract_iff`).
-/
namespace Htools.Udp

/-- The values of `errno` that are told apart. -/
inductive Errno where
  | EINTR
  | EAGAIN
  | EWOULDBLOCK
  | other (code : Nat)
  deriving DecidableEq

/-- How `event_wait` is compiled. -/
inductive Event where
  | poll
  | select
  deriving DecidableEq

/-- What the system calls of one call return, errors for -1. -/
structure System (Address : Type) where
  /-- `poll` or `select`. -/
  wait : Except Errno Nat
  /-- `pfd[1].revents` after `poll`; whatever it was where `poll` was not given it. -/
  revents : UInt16
  /-- The descriptors that `select` leaves in its set. -/
  ready : Int → Bool
  read : Except Errno (List UInt8)
  recvfrom : Except Errno (List UInt8 × Address)
  /-- `errno` where no call has set it. -/
  stale : Errno

/-- `struct UDPDatagram`; there may be more memory behind `buf`. -/
structure UDPDatagram where
  bytes : UInt64
  buf : List UInt8

/-- A conversion to `int`. -/
def to_int (n : Int) : Int := (n + 2 ^ 31) % 2 ^ 32 - 2 ^ 31

/-- A conversion to `size_t`. -/
def to_size (n : Int) : UInt64 := UInt64.ofNat (n % 2 ^ 64).toNat

def POLLIN : UInt16 := 1

section
variable {Address : Type} (event : Event) (sys : System Address)

/-- `POLLIN & pfd[1].revents`, or `FD_ISSET` of the other descriptor in what `select`
    leaves of the set. -/
def extra_ready (a_socket a_fd_extra : Int) : Bool :=
  let socks (fd : Int) : Bool := fd = a_socket ∨ 0 < a_fd_extra ∧ fd = a_fd_extra
  match event with
  | .poll => POLLIN &&& sys.revents ≠ 0
  | .select => socks a_fd_extra && sys.ready a_fd_extra

/-- The result has what is returned and the warnings. -/
def event_wait (a_socket a_fd_extra : Int) : Int × List String :=
  let ret : Int :=
    match sys.wait with
    | .error _ => -1
    | .ok n => n
  let warned :=
    match event,sys.wait with
    | _,.ok _ => []
    | .poll,.error errno => if .EINTR ≠ errno then ["poll"] else []
    | .select,.error errno => if .EINTR ≠ errno then ["select"] else []
  if 1 > ret then (0,warned)
  else if -1 ≠ a_fd_extra ∧ extra_ready event sys a_socket a_fd_extra then (2,warned)
  else (1,warned)

/-- What a call leaves: its result, the datagram, `*a_addr` and the warnings. -/
structure Received (Address : Type) where
  ret : Int
  dgram : UDPDatagram
  addr : Option Address
  warned : List String

/-- The size of the buffer that is in force. -/
def size (a_dgram : UDPDatagram) : UInt64 := if 0 = a_dgram.bytes then 512 else a_dgram.bytes

/-- Bytes at the front of a buffer. -/
def fill (buf data : List UInt8) : List UInt8 := data ++ buf.drop data.length

/-- `a_addr` says whether the pointer is there. -/
def receive_datagram (a_socket a_fd_extra : Int) (a_dgram : UDPDatagram) (a_addr : Bool) : Received Address :=
  let (ret,warned) := event_wait event sys a_socket a_fd_extra
  if 0 = ret then ⟨1,⟨0,a_dgram.buf⟩,none,warned⟩
  else if 2 = ret then
    match sys.read with
    | .error _ => ⟨1,⟨to_size (-1),a_dgram.buf⟩,none,warned⟩
    | .ok data => ⟨1,⟨to_size data.length,fill a_dgram.buf data⟩,none,warned⟩
  else
    let ret :=
      match sys.recvfrom with
      | .error _ => to_int (-1)
      | .ok (data,_) => to_int data.length
    let buf :=
      match sys.recvfrom with
      | .error _ => a_dgram.buf
      | .ok (data,_) => fill a_dgram.buf data
    let errno :=
      match sys.recvfrom with
      | .error errno => errno
      | .ok _ => sys.stale
    let from_ :=
      match sys.recvfrom with
      | .error _ => none
      | .ok (_,address) => some address
    if -1 = ret then
      if .EAGAIN = errno ∨ .EWOULDBLOCK = errno then ⟨1,⟨0,buf⟩,none,warned⟩
      else ⟨0,⟨0,buf⟩,none,warned ++ ["recvfrom"]⟩
    else if 0 ≠ ret ∧ a_addr then ⟨1,⟨to_size ret,buf⟩,from_,warned⟩
    else ⟨1,⟨to_size ret,buf⟩,none,warned⟩

/-- A client has no other descriptor and wants no address. -/
def udp_client_receive (socket : Int) (a_dgram : UDPDatagram) : Received Address :=
  receive_datagram event sys socket (-1) a_dgram false

/-! ### The contract -/

/-- What a call waits for, once the wait is over. -/
def source (a_socket a_fd_extra : Int) : Int := (event_wait event sys a_socket a_fd_extra).1

/-- The bytes that the system calls of one call have stored. -/
def stored (a_socket a_fd_extra : Int) : List UInt8 :=
  if 0 = source event sys a_socket a_fd_extra then []
  else if 2 = source event sys a_socket a_fd_extra then
    match sys.read with
    | .error _ => []
    | .ok data => data
  else
    match sys.recvfrom with
    | .error _ => []
    | .ok (data,_) => data

/-- A timeout or an interruption. -/
def Idle : Prop := sys.wait = .ok 0 ∨ sys.wait = .error .EINTR

/-- A system call of one call has failed. -/
def Failed (a_socket a_fd_extra : Int) : Prop :=
  (∃ errno,sys.wait = .error errno) ∨ (2 = source event sys a_socket a_fd_extra ∧ ∃ errno,sys.read = .error errno) ∨
    (1 = source event sys a_socket a_fd_extra ∧ ∃ errno,sys.recvfrom = .error errno)

/-- No call stores more than it has been asked for, and the count is an `ssize_t`. -/
def Bounded (a_dgram : UDPDatagram) : Prop :=
  (∀ data,sys.read = .ok data → data.length ≤ (size a_dgram).toNat) ∧
    ∀ data address,sys.recvfrom = .ok (data,address) → data.length ≤ (size a_dgram).toNat ∧ data.length < 2 ^ 63

/-- The contract of `receive_datagram`. -/
structure Contract (a_socket a_fd_extra : Int) (a_dgram : UDPDatagram) (a_addr : Bool) (r : Received Address) : Prop where
  zero : r.ret = 0 → Failed event sys a_socket a_fd_extra
  one : r.ret ≠ 0 → r.ret = 1 ∧
    (r.dgram.bytes = 0 ∧ Idle sys ∨ r.dgram.bytes.toNat = (stored event sys a_socket a_fd_extra).length)
  fits : r.dgram.bytes.toNat ≤ (size a_dgram).toNat
  addr : ∀ address,r.addr = some address → a_addr = true ∧ 1 = source event sys a_socket a_fd_extra ∧
    ∃ data,sys.recvfrom = .ok (data,address) ∧ data ≠ []

/-- `poll` or `select` fails other than by an interruption. -/
def WaitFails : Prop := ∃ errno,sys.wait = .error errno ∧ errno ≠ .EINTR

/-- The other descriptor is read and cannot be. -/
def ReadFails (a_socket a_fd_extra : Int) : Prop :=
  2 = source event sys a_socket a_fd_extra ∧ ∃ errno,sys.read = .error errno

/-- The socket gives more bytes than an `int` counts. -/
def Large (a_socket a_fd_extra : Int) : Prop :=
  1 = source event sys a_socket a_fd_extra ∧ ∃ data address,sys.recvfrom = .ok (data,address) ∧ 2 ^ 31 ≤ data.length

end

section
variable {Address : Type} {event : Event} {sys : System Address} {a_socket a_fd_extra : Int} {a_dgram : UDPDatagram}
  {a_addr : Bool}

/-- The wait is over without an event, or with one at one of the descriptors. -/
theorem source_cases (event : Event) (sys : System Address) (a_socket a_fd_extra : Int) :
    ((∃ warned,event_wait event sys a_socket a_fd_extra = (0,warned)) ∧
        (sys.wait = .ok 0 ∨ ∃ errno,sys.wait = .error errno)) ∨
      (∃ ret,event_wait event sys a_socket a_fd_extra = (ret,[]) ∧ (ret = 2 ∨ ret = 1)) ∧ ∃ n,sys.wait = .ok (n + 1) := by
  cases waited : sys.wait with
  | error errno => exact .inl ⟨⟨_,by simp only [event_wait,waited]; rfl⟩,.inr ⟨errno,rfl⟩⟩
  | ok n =>
    cases n with
    | zero => exact .inl ⟨⟨_,by simp only [event_wait,waited]; rfl⟩,.inl rfl⟩
    | succ n =>
      refine .inr ⟨?_,n,rfl⟩
      have positive : ¬ 1 > ((n + 1 : Nat) : Int) := by omega
      simp only [event_wait,waited,if_neg positive]
      split
      · exact ⟨2,rfl,.inl rfl⟩
      · exact ⟨1,rfl,.inr rfl⟩

/-- A count that a `size_t` holds. -/
theorem to_size_count {n : Nat} (small : n < 2 ^ 64) : (to_size n).toNat = n := by
  rw [to_size,UInt64.toNat_ofNat']
  omega

theorem to_int_count {n : Nat} (small : n < 2 ^ 31) : to_int n = n := by
  rw [to_int]
  omega

/-- A larger count does not come through an `int`. -/
theorem to_size_large {n : Nat} (large : 2 ^ 31 ≤ n) (small : n < 2 ^ 63) : (to_size (to_int n)).toNat ≠ n := by
  rw [to_size,UInt64.toNat_ofNat',to_int]
  omega

/-- Nothing has come. -/
theorem receive_nothing {warned : List String} (waited : event_wait event sys a_socket a_fd_extra = (0,warned)) :
    receive_datagram event sys a_socket a_fd_extra a_dgram a_addr = ⟨1,⟨0,a_dgram.buf⟩,none,warned⟩ := by
  simp only [receive_datagram,waited]
  rfl

theorem receive_extra_error {warned : List String} {errno : Errno}
    (waited : event_wait event sys a_socket a_fd_extra = (2,warned)) (failed : sys.read = .error errno) :
    receive_datagram event sys a_socket a_fd_extra a_dgram a_addr = ⟨1,⟨to_size (-1),a_dgram.buf⟩,none,warned⟩ := by
  simp only [receive_datagram,waited,failed]
  rfl

theorem receive_extra {warned : List String} {data : List UInt8}
    (waited : event_wait event sys a_socket a_fd_extra = (2,warned)) (received : sys.read = .ok data) :
    receive_datagram event sys a_socket a_fd_extra a_dgram a_addr =
      ⟨1,⟨to_size data.length,fill a_dgram.buf data⟩,none,warned⟩ := by
  simp only [receive_datagram,waited,received]
  rfl

theorem receive_socket_error {warned : List String} {errno : Errno}
    (waited : event_wait event sys a_socket a_fd_extra = (1,warned)) (failed : sys.recvfrom = .error errno) :
    receive_datagram event sys a_socket a_fd_extra a_dgram a_addr =
      if .EAGAIN = errno ∨ .EWOULDBLOCK = errno then ⟨1,⟨0,a_dgram.buf⟩,none,warned⟩
      else ⟨0,⟨0,a_dgram.buf⟩,none,warned ++ ["recvfrom"]⟩ := by
  simp only [receive_datagram,waited,failed]
  rfl

theorem receive_socket {warned : List String} {data : List UInt8} {address : Address}
    (waited : event_wait event sys a_socket a_fd_extra = (1,warned)) (received : sys.recvfrom = .ok (data,address)) :
    receive_datagram event sys a_socket a_fd_extra a_dgram a_addr =
      if -1 = to_int data.length then
        if .EAGAIN = sys.stale ∨ .EWOULDBLOCK = sys.stale then ⟨1,⟨0,fill a_dgram.buf data⟩,none,warned⟩
        else ⟨0,⟨0,fill a_dgram.buf data⟩,none,warned ++ ["recvfrom"]⟩
      else if 0 ≠ to_int data.length ∧ a_addr then
        ⟨1,⟨to_size (to_int data.length),fill a_dgram.buf data⟩,some address,warned⟩
      else ⟨1,⟨to_size (to_int data.length),fill a_dgram.buf data⟩,none,warned⟩ := by
  simp only [receive_datagram,waited,received]
  rw [if_neg (show ¬ (0 : Int) = 1 by decide),if_neg (show ¬ (2 : Int) = 1 by decide)]

/-- Where nothing has come, the contract is kept. -/
theorem contract_nothing {warned : List String} (waited : event_wait event sys a_socket a_fd_extra = (0,warned)) :
    Contract event sys a_socket a_fd_extra a_dgram a_addr
      (receive_datagram event sys a_socket a_fd_extra a_dgram a_addr) := by
  have none_stored : stored event sys a_socket a_fd_extra = [] := by
    rw [stored,source,waited]
    rfl
  rw [receive_nothing waited]
  refine ⟨by rintro ⟨⟩,fun _ => ⟨rfl,.inr (by rw [none_stored]; rfl)⟩,Nat.zero_le _,by rintro _ ⟨⟩⟩

/-- What the other descriptor gives is counted, but its error is not seen. -/
theorem contract_extra (bounded : Bounded sys a_dgram) {warned : List String}
    (waited : event_wait event sys a_socket a_fd_extra = (2,warned)) :
    Contract event sys a_socket a_fd_extra a_dgram a_addr
      (receive_datagram event sys a_socket a_fd_extra a_dgram a_addr) ↔ ¬ ∃ errno,sys.read = .error errno := by
  have at_extra : 2 = source event sys a_socket a_fd_extra := by rw [source,waited]
  cases result : sys.read with
  | error errno =>
    rw [receive_extra_error waited result]
    refine iff_of_false ?_ fun ok => ok ⟨errno,rfl⟩
    intro contract
    have none_stored : stored event sys a_socket a_fd_extra = [] := by
      rw [stored,← at_extra,result]
      rfl
    have most : (to_size (-1)).toNat = 2 ^ 64 - 1 := by decide
    obtain ⟨_,⟨zero,_⟩ | counted⟩ := contract.one (by rintro ⟨⟩)
    · have bytes := congrArg UInt64.toNat zero
      rw [most] at bytes
      exact absurd bytes (by decide)
    · rw [none_stored,most] at counted
      exact absurd counted (by decide)
  | ok data =>
    rw [receive_extra waited result]
    refine iff_of_true ?_ (by rintro ⟨_,⟨⟩⟩)
    have le := bounded.1 data result
    have count : (to_size data.length).toNat = data.length := to_size_count (Nat.lt_of_le_of_lt le (size a_dgram).toNat_lt)
    have all_stored : stored event sys a_socket a_fd_extra = data := by
      rw [stored,← at_extra,result]
      rfl
    refine ⟨by rintro ⟨⟩,fun _ => ⟨rfl,.inr (by rw [all_stored]; exact count)⟩,?_,by rintro _ ⟨⟩⟩
    exact Nat.le_trans (Nat.le_of_eq count) le

/-- A failed read of the socket stores nothing. -/
theorem contract_socket_error {warned : List String} {errno : Errno}
    (waited : event_wait event sys a_socket a_fd_extra = (1,warned)) (failed : sys.recvfrom = .error errno) :
    Contract event sys a_socket a_fd_extra a_dgram a_addr
      (receive_datagram event sys a_socket a_fd_extra a_dgram a_addr) := by
  have at_socket : 1 = source event sys a_socket a_fd_extra := by rw [source,waited]
  have none_stored : stored event sys a_socket a_fd_extra = [] := by
    rw [stored,← at_socket,failed]
    rfl
  rw [receive_socket_error waited failed]
  split
  · exact ⟨by rintro ⟨⟩,fun _ => ⟨rfl,.inr (by rw [none_stored]; rfl)⟩,Nat.zero_le _,by rintro _ ⟨⟩⟩
  · exact ⟨fun _ => .inr (.inr ⟨at_socket,errno,failed⟩),fun some_ => absurd rfl some_,Nat.zero_le _,by rintro _ ⟨⟩⟩

theorem stored_socket {warned : List String} {data : List UInt8} {address : Address}
    (waited : event_wait event sys a_socket a_fd_extra = (1,warned)) (received : sys.recvfrom = .ok (data,address)) :
    stored event sys a_socket a_fd_extra = data := by
  have at_socket : 1 = source event sys a_socket a_fd_extra := by rw [source,waited]
  rw [stored,← at_socket,received]
  rfl

/-- What the socket gives is counted where an `int` holds the count. -/
theorem contract_socket_small (bounded : Bounded sys a_dgram) {warned : List String} {data : List UInt8} {address : Address}
    (waited : event_wait event sys a_socket a_fd_extra = (1,warned)) (received : sys.recvfrom = .ok (data,address))
    (small : data.length < 2 ^ 31) :
    Contract event sys a_socket a_fd_extra a_dgram a_addr
      (receive_datagram event sys a_socket a_fd_extra a_dgram a_addr) := by
  obtain ⟨le,_⟩ := bounded.2 data address received
  have all_stored := stored_socket waited received
  have count : (to_size (data.length : Int)).toNat = data.length := to_size_count (by omega)
  have fits : (to_size (data.length : Int)).toNat ≤ (size a_dgram).toNat := Nat.le_trans (Nat.le_of_eq count) le
  rw [receive_socket waited received,to_int_count small,if_neg (by omega)]
  split
  · rename_i wanted
    refine ⟨by rintro ⟨⟩,fun _ => ⟨rfl,.inr (by rw [all_stored]; exact count)⟩,fits,?_⟩
    rintro _ ⟨⟩
    refine ⟨wanted.2,by rw [source,waited],data,received,?_⟩
    rintro rfl
    exact wanted.1 rfl
  · exact ⟨by rintro ⟨⟩,fun _ => ⟨rfl,.inr (by rw [all_stored]; exact count)⟩,fits,by rintro _ ⟨⟩⟩

/-- A larger count is lost, whatever is returned. -/
theorem contract_socket_large (bounded : Bounded sys a_dgram) {warned : List String} {data : List UInt8} {address : Address}
    {n : Nat} (event_came : sys.wait = .ok (n + 1)) (waited : event_wait event sys a_socket a_fd_extra = (1,warned))
    (received : sys.recvfrom = .ok (data,address)) (large : 2 ^ 31 ≤ data.length) :
    ¬ Contract event sys a_socket a_fd_extra a_dgram a_addr
      (receive_datagram event sys a_socket a_fd_extra a_dgram a_addr) := by
  have at_socket : 1 = source event sys a_socket a_fd_extra := by rw [source,waited]
  have apart := to_size_large large (bounded.2 data address received).2
  have busy : ¬ Idle sys := by
    rintro (timeout | interrupted)
    · rw [event_came] at timeout
      cases timeout
    · rw [event_came] at interrupted
      cases interrupted
  have wrong : ∀ r : Received Address,r.ret = 1 → r.dgram.bytes.toNat ≠ data.length →
      ¬ Contract event sys a_socket a_fd_extra a_dgram a_addr r := by
    intro r one miscounted contract
    obtain ⟨_,⟨_,idle⟩ | right⟩ := contract.one (by rw [one]; decide)
    · exact busy idle
    · rw [stored_socket waited received] at right
      exact miscounted right
  rw [receive_socket waited received]
  split
  · split
    · refine wrong _ rfl fun zero => ?_
      have none_ : (0 : UInt64).toNat = 0 := rfl
      simp only [none_] at zero
      omega
    · intro contract
      obtain ⟨_,failed⟩ | ⟨elsewhere,_⟩ | ⟨_,_,failed⟩ := contract.zero rfl
      · rw [event_came] at failed
        cases failed
      · rw [← at_socket] at elsewhere
        exact absurd elsewhere (by decide)
      · rw [received] at failed
        cases failed
  · split
    · exact wrong _ rfl apart
    · exact wrong _ rfl apart

/-- What the socket gives is counted as far as an `int` does. -/
theorem contract_socket (bounded : Bounded sys a_dgram) {warned : List String} {n : Nat}
    (event_came : sys.wait = .ok (n + 1)) (waited : event_wait event sys a_socket a_fd_extra = (1,warned)) :
    Contract event sys a_socket a_fd_extra a_dgram a_addr
      (receive_datagram event sys a_socket a_fd_extra a_dgram a_addr) ↔
      ¬ ∃ data address,sys.recvfrom = .ok (data,address) ∧ 2 ^ 31 ≤ data.length := by
  cases result : sys.recvfrom with
  | error errno => exact iff_of_true (contract_socket_error waited result) (by rintro ⟨_,_,⟨⟩,_⟩)
  | ok received =>
    obtain ⟨data,address⟩ := received
    by_cases small : data.length < 2 ^ 31
    · refine iff_of_true (contract_socket_small bounded waited result small) ?_
      rintro ⟨_,_,⟨⟩,large⟩
      omega
    · have large := Nat.not_lt.mp small
      exact iff_of_false (contract_socket_large bounded event_came waited result large) fun few => few ⟨data,address,rfl,large⟩

/-- One case for each source of the data. -/
theorem contract_kept_iff (bounded : Bounded sys a_dgram) :
    Contract event sys a_socket a_fd_extra a_dgram a_addr
        (receive_datagram event sys a_socket a_fd_extra a_dgram a_addr) ↔
      ¬ ReadFails event sys a_socket a_fd_extra ∧ ¬ Large event sys a_socket a_fd_extra := by
  obtain ⟨⟨warned,waited⟩,_⟩ | ⟨⟨ret,waited,came⟩,n,ended⟩ := source_cases event sys a_socket a_fd_extra
  · have nowhere : source event sys a_socket a_fd_extra = 0 := by rw [source,waited]
    refine iff_of_true (contract_nothing waited) ⟨?_,?_⟩
    · rintro ⟨extra,_⟩
      rw [nowhere] at extra
      exact absurd extra (by decide)
    · rintro ⟨socket,_⟩
      rw [nowhere] at socket
      exact absurd socket (by decide)
  · have at_ : source event sys a_socket a_fd_extra = ret := by rw [source,waited]
    rw [ReadFails,Large,at_]
    obtain rfl | rfl := came
    · rw [contract_extra bounded waited,and_iff_left (by rintro ⟨⟨⟩,_⟩),and_iff_right rfl]
    · rw [contract_socket bounded ended waited,and_iff_right (by rintro ⟨⟨⟩,_⟩),and_iff_right rfl]

/-- A failed wait is not told from a timeout. -/
theorem wait_fails_ret (fails : WaitFails sys) :
    (receive_datagram event sys a_socket a_fd_extra a_dgram a_addr).ret = 1 := by
  obtain ⟨errno,failed,_⟩ := fails
  obtain ⟨⟨warned,waited⟩,_⟩ | ⟨_,n,ended⟩ := source_cases event sys a_socket a_fd_extra
  · rw [receive_nothing waited]
  · rw [failed] at ended
    cases ended

/-- A client never reads the other descriptor. -/
theorem client_contract (bounded : Bounded sys a_dgram) :
    Contract event sys a_socket (-1) a_dgram false (udp_client_receive event sys a_socket a_dgram) ↔
      ¬ Large event sys a_socket (-1) := by
  rw [udp_client_receive,contract_kept_iff bounded,and_iff_right]
  rintro ⟨extra,_⟩
  obtain ⟨⟨_,waited⟩,_⟩ | ⟨_,n,ended⟩ := source_cases event sys a_socket (-1)
  · rw [source,waited] at extra
    cases extra
  · have positive : ¬ 1 > ((n + 1 : Nat) : Int) := by omega
    simp only [source,event_wait,ended,if_neg positive] at extra
    rw [if_neg (fun both => both.1 rfl)] at extra
    exact absurd extra (by decide)

end

/-- The contract is kept exactly if no read of the other descriptor fails and the
    socket gives less than 2^31 bytes. That a failed wait returns 0, as the comment
    has it for errors, is so only where no wait fails. -/
theorem contract_iff {Address : Type} (event : Event) (sys : System Address) (a_socket a_fd_extra : Int)
    (a_dgram : UDPDatagram) (a_addr : Bool) (bounded : Bounded sys a_dgram) :
    (Contract event sys a_socket a_fd_extra a_dgram a_addr
        (receive_datagram event sys a_socket a_fd_extra a_dgram a_addr) ↔
      ¬ ReadFails event sys a_socket a_fd_extra ∧ ¬ Large event sys a_socket a_fd_extra) ∧
    ((WaitFails sys → (receive_datagram event sys a_socket a_fd_extra a_dgram a_addr).ret = 0) ↔ ¬ WaitFails sys) := by
  refine ⟨contract_kept_iff bounded,?_⟩
  constructor
  · intro told fails
    have one := @wait_fails_ret _ event _ a_socket a_fd_extra a_dgram a_addr fails
    rw [told fails] at one
    exact absurd one (by decide)
  · intro waits fails
    exact absurd fails waits

/-- A wait that is over, a descriptor that cannot be read and a datagram at the socket. -/
def answers (revents : UInt16) (data : List UInt8) : System Nat where
  wait := .ok 1
  revents := revents
  ready _ := false
  read := .error (.other 5)
  recvfrom := .ok (data,7)
  stale := .other 0

theorem answers_bounded (revents : UInt16) : Bounded (answers revents [1,2]) ⟨0,List.replicate 512 0⟩ := by
  refine ⟨by rintro _ ⟨⟩,?_⟩
  rintro _ _ ⟨⟩
  decide

theorem contract_datagram : Contract .poll (answers 0 [1,2]) 3 4 ⟨0,List.replicate 512 0⟩ true
    (receive_datagram .poll (answers 0 [1,2]) 3 4 ⟨0,List.replicate 512 0⟩ true) := by
  refine (contract_iff .poll (answers 0 [1,2]) 3 4 _ true (answers_bounded 0)).1.mpr ⟨?_,?_⟩
  · rintro ⟨extra,_⟩
    exact absurd extra (by decide)
  · rintro ⟨_,_,_,⟨⟩,large⟩
    exact absurd large (by decide)

theorem contract_fails : ¬ ∀ (event : Event) (sys : System Nat) a_socket a_fd_extra a_dgram a_addr,Bounded sys a_dgram →
    Contract event sys a_socket a_fd_extra a_dgram a_addr
      (receive_datagram event sys a_socket a_fd_extra a_dgram a_addr) := by
  intro kept
  have fits := (kept .poll (answers 1 [1,2]) 3 4 ⟨0,List.replicate 512 0⟩ true (answers_bounded 1)).fits
  exact absurd fits (by decide)

end Htools.Udp
