import IstKvs.Systems.Run
import Mathlib.Logic.Function.Basic

/-! The queue of new clients between the host thread and the client threads
(`process_host_thread`, `process_client_thread` and `handle_SIGUSR1` of `main.c`):
two counting semaphores, a circular buffer, and the handler of SIGUSR1, which runs
on the main thread or on the host thread. Calls of the host that block in `sem_wait`
are interrupted by a handler on the host thread. -/

namespace IstKvs.Host

open IstKvs.Systems Function

def maxSessionCount : ℕ := 2

/-- A `ClientInfo` is named by the number of its allocation. -/
abbrev Pointer := ℕ

/-- Where the host thread is in its loop. -/
inductive HostStage
  | wait
  | blocked
  | check
  | restart
  | resetRestart
  | reading
  | resetControl
  | alloc
  | failed
  | store (p : Pointer)
  | advance
  | postRead
  deriving DecidableEq

/-- Where a client thread is in its loop; `session` is all of the session it serves. -/
inductive ClientStage
  | wait
  | lock
  | take
  | free (p : Pointer)
  | advance
  | unlock
  | post
  | session
  deriving DecidableEq

/-- `inIndex` and `outIndex` are `in` and `out`. The two handler fields say that a
handler has set its flags and not yet posted. The last three record the pointers
stored in, taken from and freed after the buffer, in order. -/
structure State (ι : Type*) where
  writeSem : ℕ
  readSem : ℕ
  clientsBuffer : ℕ → Option Pointer
  inIndex : ℕ
  outIndex : ℕ
  clientsBufferMutex : Option ι
  disconnectControl : Bool
  restartClients : Bool
  mainHandler : Bool
  hostHandler : Bool
  host : HostStage
  client : ι → ClientStage
  allocated : ℕ
  stored : List Pointer
  taken : List Pointer
  freed : List Pointer

variable {ι : Type*}

def State.initial : State ι where
  writeSem := maxSessionCount
  readSem := 0
  clientsBuffer := fun _ => none
  inIndex := 0
  outIndex := 0
  clientsBufferMutex := none
  disconnectControl := false
  restartClients := false
  mainHandler := false
  hostHandler := false
  host := .wait
  client := fun _ => .wait
  allocated := 0
  stored := []
  taken := []
  freed := []

/-- `in++` and `out++` with the wrap-around. -/
def next (index : ℕ) : ℕ := if index + 1 = maxSessionCount then 0 else index + 1

/-- One step of the host thread; `ok` is the outcome of `read_connect_message` or `malloc`. -/
def hostStep (s : State ι) (ok : Bool) : Option (State ι) :=
  match s.host with
  | .wait =>
    if 0 < s.writeSem then some { s with writeSem := s.writeSem - 1, host := .check }
    else some { s with host := .blocked }
  | .blocked =>
    if 0 < s.writeSem then some { s with writeSem := s.writeSem - 1, host := .check } else none
  | .check => some { s with host := if s.restartClients then .restart else .reading }
  | .restart => some { s with host := .resetRestart }
  | .resetRestart => some { s with restartClients := false, host := .wait }
  | .reading => some { s with host := if ok then .resetControl else .failed }
  | .resetControl => some { s with disconnectControl := false, host := .alloc }
  | .alloc =>
    if ok then some { s with allocated := s.allocated + 1, host := .store s.allocated }
    else some { s with host := .failed }
  | .failed => some { s with writeSem := s.writeSem + 1, host := .wait }
  | .store p => some { s with
      clientsBuffer := update s.clientsBuffer s.inIndex (some p)
      stored := s.stored ++ [p]
      host := .advance }
  | .advance => some { s with inIndex := next s.inIndex, host := .postRead }
  | .postRead => some { s with readSem := s.readSem + 1, host := .wait }

section Client
variable [DecidableEq ι]

def State.goto (s : State ι) (i : ι) (stage : ClientStage) : State ι :=
  { s with client := update s.client i stage }

/-- One step of a client thread; it cannot read through a NULL pointer. -/
def clientStep (s : State ι) (i : ι) : Option (State ι) :=
  match s.client i with
  | .wait => if 0 < s.readSem then some ({ s with readSem := s.readSem - 1 }.goto i .lock) else none
  | .lock =>
    if s.clientsBufferMutex = none then some ({ s with clientsBufferMutex := some i }.goto i .take)
    else none
  | .take => (s.clientsBuffer s.outIndex).map fun p =>
      { s with taken := s.taken ++ [p] }.goto i (.free p)
  | .free p => some ({ s with freed := s.freed ++ [p] }.goto i .advance)
  | .advance => some ({ s with outIndex := next s.outIndex }.goto i .unlock)
  | .unlock => some ({ s with clientsBufferMutex := none }.goto i .post)
  | .post => some ({ s with writeSem := s.writeSem + 1 }.goto i .session)
  | .session => some (s.goto i .wait)

inductive Label (ι : Type*)
  | host (ok : Bool)
  | client (i : ι)
  | signal (onHost : Bool)
  | post (onHost : Bool)
  deriving DecidableEq

/-- A handler sets both flags. -/
def signalStep (s : State ι) (onHost : Bool) : Option (State ι) :=
  let s' := { s with disconnectControl := true, restartClients := true }
  match onHost with
  | false => if s.mainHandler then none else some { s' with mainHandler := true }
  | true => if s.hostHandler then none else some { s' with hostHandler := true }

/-- A handler posts and returns; on the host thread it interrupts a blocked `sem_wait`,
whose failure the loop does not look at. -/
def postStep (s : State ι) (onHost : Bool) : Option (State ι) :=
  let s' := { s with writeSem := s.writeSem + 1 }
  match onHost with
  | false => if s.mainHandler then some { s' with mainHandler := false } else none
  | true =>
    if s.hostHandler then
      some { s' with hostHandler := false, host := if s.host = .blocked then .check else s.host }
    else none

/-- The host thread does not go on while it runs a handler. -/
def step (s : State ι) : Label ι → Option (State ι)
  | .host ok => if s.hostHandler then none else hostStep s ok
  | .client i => clientStep s i
  | .signal onHost => signalStep s onHost
  | .post onHost => postStep s onHost

/-- A signal arrives when no restart is outstanding, and not inside the host's `sem_wait`. -/
def calm (s : State ι) : Label ι → Bool
  | .signal onHost => !s.restartClients && !(onHost && s.host = .blocked)
  | _ => true

end Client

end IstKvs.Host
