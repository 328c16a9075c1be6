import IstKvs.Sessions.Requests
import IstKvs.Systems.Run

/-! The end of a session (`kvs_disconnect` of the server and of the client, and
`process_notif_thread`). Three threads in two processes share the three pipes: the
server closes the notification pipe before it answers, the notification thread takes
that for the end of the server and closes the response pipe, and the main thread
reads its answer from the response pipe. -/

namespace IstKvs.Client

open IstKvs.Systems IstKvs.Sessions

/-- The result of a `kvs_disconnect` of the server whose calls to `close` succeed. -/
def resultClosed : UInt8 := UInt8.ofNat '0'.toNat

/-! ### The machine -/

/-- The server's thread, from the read of the opcode to the end of `kvs_disconnect`. -/
inductive ServerStage
  | read | unsubscribe | closeReq | closeNotif | writeOpcode | writeResult | closeResp | remove
  | done
  deriving DecidableEq

/-- `kvs_disconnect` of the client. A read is called, which needs the descriptor, and
returns with a byte, which needs the pipe only. -/
inductive MainStage
  | write | callOpcode | readOpcode | callResult | readResult | join | returned
  deriving DecidableEq

/-- `process_notif_thread`, with the closing of the pipes in `terminate_pipes`. -/
inductive NotifStage
  | readKey | readValue | closeReq | closeNotif | closeResp | exited
  deriving DecidableEq

/-- The server has the write end of the notification pipe open. -/
def ServerStage.holdsNotif : ServerStage → Bool
  | .read | .unsubscribe | .closeReq | .closeNotif => true
  | _ => false

/-- The server has the write end of the response pipe open. -/
def ServerStage.holdsResp : ServerStage → Bool
  | .remove | .done => false
  | _ => true

/-- The client has the write end of the request pipe open. -/
def NotifStage.holdsReq : NotifStage → Bool
  | .readKey | .readValue | .closeReq => true
  | _ => false

/-- The client has the read end of the response pipe open. -/
def NotifStage.holdsResp : NotifStage → Bool
  | .exited => false
  | _ => true

/-- `notifications` counts the blocks of 41 bytes in the notification pipe, `response` holds
the bytes in the response pipe and `received` those that the main thread has read. -/
structure State where
  request : Bool
  notifications : ℕ
  response : List UInt8
  received : List UInt8
  error : Bool
  server : ServerStage
  main : MainStage
  notif : NotifStage

/-- The client's main thread calls `kvs_disconnect`; the notification thread is at its
first or its second read. -/
def State.initial (notifications : ℕ) (halfRead : Bool) : State :=
  ⟨false, notifications, [], [], false, .read, .write, if halfRead then .readValue else .readKey⟩

/-- A read in progress keeps the pipe when its descriptor is closed. -/
def State.respReader (s : State) : Bool :=
  s.notif.holdsResp || decide (s.main = .readOpcode) || decide (s.main = .readResult)

/-- `read_server_response` fails. -/
def State.fail (s : State) : State := { s with error := true, main := .join }

inductive Label
  | server | main | notif
  /-- A job thread writes a block to the notification pipe. -/
  | notify
  deriving DecidableEq

def serverStep (s : State) : Option State :=
  match s.server with
  | .read => if s.request then some { s with request := false, server := .unsubscribe } else none
  | .unsubscribe => some { s with server := .closeReq }
  | .closeReq => some { s with server := .closeNotif }
  | .closeNotif => some { s with server := .writeOpcode }
  | .writeOpcode =>
    if s.respReader then
      some { s with response := s.response ++ [opCodeDisconnect], server := .writeResult }
    else some { s with server := .closeResp }
  | .writeResult =>
    if s.respReader then
      some { s with response := s.response ++ [resultClosed], server := .closeResp }
    else some { s with server := .closeResp }
  | .closeResp => some { s with server := .remove }
  | .remove => some { s with server := .done }
  | .done => none

def mainStep (s : State) : Option State :=
  match s.main with
  | .write =>
    if s.notif.holdsReq then some { s with request := true, main := .callOpcode }
    else some { s with error := true, main := .callOpcode }
  | .callOpcode =>
    if s.notif.holdsResp then some { s with main := .readOpcode } else some s.fail
  | .readOpcode =>
    match s.response with
    | ch :: rest =>
      let s := { s with response := rest, received := s.received ++ [ch] }
      if ch = opCodeDisconnect then some { s with main := .callResult } else some s.fail
    | [] => if s.server.holdsResp then none else some s.fail
  | .callResult =>
    if s.notif.holdsResp then some { s with main := .readResult } else some s.fail
  | .readResult =>
    match s.response with
    | ch :: rest => some { s with response := rest, received := s.received ++ [ch], main := .join }
    | [] => if s.server.holdsResp then none else some s.fail
  | .join => if s.notif = .exited then some { s with main := .returned } else none
  | .returned => none

/-- A block is read, or the pipe is empty and open, or at its end. -/
def notifRead (s : State) (next : NotifStage) : Option State :=
  if 0 < s.notifications then some { s with notifications := s.notifications - 1, notif := next }
  else if s.server.holdsNotif then none
  else some { s with notif := .closeReq }

def notifStep (s : State) : Option State :=
  match s.notif with
  | .readKey => notifRead s .readValue
  | .readValue => notifRead s .readKey
  | .closeReq => some { s with notif := .closeNotif }
  | .closeNotif => some { s with notif := .closeResp }
  | .closeResp => some { s with notif := .exited }
  | .exited => none

def step (s : State) : Label → Option State
  | .server => serverStep s
  | .main => mainStep s
  | .notif => notifStep s
  | .notify =>
    if s.server.holdsNotif then some { s with notifications := s.notifications + 1 } else none

/-! ### Progress -/

/-- The main thread has not called its second read. -/
def MainStage.early : MainStage → Bool
  | .write | .callOpcode | .readOpcode | .callResult => true
  | _ => false

/-- How many steps a thread has before it at most, notifications apart. -/
def ServerStage.left : ServerStage → ℕ
  | .read => 8 | .unsubscribe => 7 | .closeReq => 6 | .closeNotif => 5 | .writeOpcode => 4
  | .writeResult => 3 | .closeResp => 2 | .remove => 1 | .done => 0

def MainStage.left : MainStage → ℕ
  | .write => 6 | .callOpcode => 5 | .readOpcode => 4 | .callResult => 3 | .readResult => 2
  | .join => 1 | .returned => 0

def NotifStage.left : NotifStage → ℕ
  | .readKey | .readValue => 4 | .closeReq => 3 | .closeNotif => 2 | .closeResp => 1 | .exited => 0

def State.left (s : State) : ℕ :=
  s.server.left + s.main.left + s.notif.left + s.notifications

theorem serverStep_left {s t : State} (h : serverStep s = some t) : t.left < s.left := by
  cases hst : s.server <;> simp only [serverStep, hst] at h
  case done => cases h
  case read =>
    obtain ⟨-, h⟩ := Option.ite_none_right_eq_some.mp h
    cases h
    simp [State.left, ServerStage.left, hst]
  case writeOpcode | writeResult =>
    split_ifs at h <;> cases h <;> simp [State.left, ServerStage.left, hst]
  all_goals
    cases h
    simp [State.left, ServerStage.left, hst]

/-- The main thread goes on to a later stage. -/
theorem left_of_main {s t : State} (hserver : t.server = s.server) (hnotif : t.notif = s.notif)
    (hblocks : t.notifications = s.notifications) (hmain : t.main.left < s.main.left) :
    t.left < s.left := by
  simp only [State.left, hserver, hnotif, hblocks]
  omega

theorem mainStep_left {s t : State} (h : mainStep s = some t) : t.left < s.left := by
  have hgoes := left_of_main (s := s) (t := t)
  cases hst : s.main <;> simp only [mainStep, hst] at h hgoes
  case write =>
    split_ifs at h <;> cases h <;> exact hgoes rfl rfl rfl (by simp [MainStage.left])
  case callOpcode | callResult =>
    split_ifs at h <;> cases h <;> exact hgoes rfl rfl rfl (by simp [State.fail, MainStage.left])
  case readOpcode =>
    split at h <;> split_ifs at h <;> cases h <;>
      exact hgoes rfl rfl rfl (by simp [State.fail, MainStage.left])
  case readResult =>
    split at h
    · cases h
      exact hgoes rfl rfl rfl (by simp [MainStage.left])
    · split_ifs at h
      cases h
      exact hgoes rfl rfl rfl (by simp [State.fail, MainStage.left])
  case join =>
    obtain ⟨-, h⟩ := Option.ite_none_right_eq_some.mp h
    cases h
    exact hgoes rfl rfl rfl (by simp [MainStage.left])
  case returned => cases h

theorem notifRead_left {s t : State} {next : NotifStage} (hst : s.notif.left = 4)
    (hnext : next.left = 4) (h : notifRead s next = some t) : t.left < s.left := by
  unfold notifRead at h
  split_ifs at h with hpos <;> cases h <;> simp only [State.left, hst, hnext]
  · omega
  · simp only [NotifStage.left]
    omega

theorem notifStep_left {s t : State} (h : notifStep s = some t) : t.left < s.left := by
  cases hst : s.notif <;> simp only [notifStep, hst] at h
  case readKey | readValue => exact notifRead_left (by rw [hst]; rfl) rfl h
  case exited => cases h
  all_goals
    cases h
    simp [State.left, NotifStage.left, hst]

/-- Each step of a thread brings the end nearer, a notification puts it off by one. -/
theorem step_left {s t : State} {l : Label} (h : step s l = some t) :
    t.left + 1 ≤ s.left + 2 * [l].count .notify := by
  cases l with
  | server => exact serverStep_left h
  | main => exact mainStep_left h
  | notif => exact notifStep_left h
  | notify =>
    simp only [step, Option.ite_none_right_eq_some, Option.some.injEq] at h
    obtain ⟨-, rfl⟩ := h
    simp only [State.left, List.count_singleton_self]
    omega

/-- The notification thread is reading. -/
def NotifStage.reading : NotifStage → Bool
  | .readKey | .readValue => true
  | _ => false

/-- What keeps the threads from waiting for each other. -/
structure Live (s : State) : Prop where
  asked : s.server = .read → s.request = true ∨ s.main = .write
  eof : s.server.holdsNotif = true → s.notif.reading = true

theorem live_initial (notifications : ℕ) (halfRead : Bool) :
    Live (State.initial notifications halfRead) where
  asked _ := .inr rfl
  eof _ := by cases halfRead <;> rfl

theorem Live.step {s t : State} {l : Label} (h : Live s) (hs : step s l = some t) : Live t := by
  cases l with
  | server =>
    have hmoved : ∀ {r : Bool} {bytes : List UInt8} {st : ServerStage}, st ≠ .read →
        (st.holdsNotif = true → s.server.holdsNotif = true) →
        Live { s with request := r, response := bytes, server := st } :=
      fun hst hnotif => ⟨fun hread => absurd hread hst, fun hn => h.eof (hnotif hn)⟩
    cases hst : s.server <;> simp only [Client.step, serverStep, hst] at hs hmoved
    case done => cases hs
    case read =>
      obtain ⟨-, hs⟩ := Option.ite_none_right_eq_some.mp hs
      cases hs
      exact hmoved nofun fun _ => rfl
    case writeOpcode | writeResult =>
      split_ifs at hs <;> cases hs <;> exact hmoved nofun nofun
    case unsubscribe | closeReq =>
      cases hs
      exact hmoved nofun fun _ => rfl
    all_goals
      cases hs
      exact hmoved nofun nofun
  | main =>
    have hkept : ∀ {u : State}, u.server = s.server → u.notif = s.notif →
        (s.server = .read → u.request = true) → Live u := by
      intro u hserver hnotif hasked
      constructor
      · rw [hserver]
        exact fun hread => .inl (hasked hread)
      · rw [hserver, hnotif]
        exact h.eof
    have hasked : s.main ≠ .write → s.server = .read → s.request = true :=
      fun hm hread => (h.asked hread).resolve_right hm
    cases hst : s.main <;> simp only [Client.step, mainStep, hst] at hs hasked
    case write =>
      have hreq : s.server = .read → s.notif.holdsReq = true := by
        intro hread
        have hreading := h.eof (by rw [hread]; rfl)
        revert hreading
        cases s.notif <;> decide
      split_ifs at hs with hholds <;> cases hs
      · exact hkept rfl rfl fun _ => rfl
      · exact hkept rfl rfl fun hread => absurd (hreq hread) hholds
    case callOpcode | callResult =>
      split_ifs at hs <;> cases hs <;> exact hkept rfl rfl (hasked nofun)
    case readOpcode =>
      split at hs <;> split_ifs at hs <;> cases hs <;> exact hkept rfl rfl (hasked nofun)
    case readResult =>
      split at hs
      · cases hs
        exact hkept rfl rfl (hasked nofun)
      · split_ifs at hs
        cases hs
        exact hkept rfl rfl (hasked nofun)
    case join =>
      obtain ⟨-, hs⟩ := Option.ite_none_right_eq_some.mp hs
      cases hs
      exact hkept rfl rfl (hasked nofun)
    case returned => cases hs
  | notif =>
    have hmoved : ∀ {k : ℕ} {st : NotifStage}, (s.server.holdsNotif = true → st.reading = true) →
        Live { s with notifications := k, notif := st } :=
      fun heof => ⟨h.asked, heof⟩
    have hread : ∀ {st : NotifStage}, st.reading = true → notifRead s st = some t → Live t := by
      intro st hst hs
      unfold notifRead at hs
      split_ifs at hs with hpos hholds <;> cases hs
      · exact hmoved fun _ => hst
      · exact hmoved fun hn => absurd hn hholds
    cases hst : s.notif <;> simp only [Client.step, notifStep, hst] at hs
    case readKey => exact hread rfl hs
    case readValue => exact hread rfl hs
    case exited => cases hs
    all_goals
      cases hs
      refine hmoved fun hn => ?_
      have hreading := h.eof hn
      rw [hst] at hreading
      cases hreading
  | notify =>
    obtain ⟨-, hs⟩ := Option.ite_none_right_eq_some.mp hs
    cases hs
    exact ⟨h.asked, h.eof⟩

/-- As long as the client's `kvs_disconnect` has not returned, some thread can take a step. -/
theorem returned_of_stuck {s : State} (h : Live s) (hs : ∀ l, l ≠ .notify → step s l = none) :
    s.main = .returned := by
  have hserver : serverStep s = none := hs .server nofun
  have hmain : mainStep s = none := hs .main nofun
  have hnotif : notifStep s = none := hs .notif nofun
  have hdone : s.server = .done ∨ s.server = .read := by
    cases hst : s.server <;> simp only [serverStep, hst] at hserver
    case done => exact .inl rfl
    case read => exact .inr rfl
    case writeOpcode | writeResult => split_ifs at hserver
    all_goals cases hserver
  rcases hdone with hdone | hread
  · have hexit : s.notif = .exited := by
      cases hst : s.notif <;> simp only [notifStep, notifRead, hst, hdone] at hnotif
      case exited => rfl
      case readKey | readValue => split_ifs at hnotif; contradiction
      all_goals cases hnotif
    cases hst : s.main <;> simp only [mainStep, hst] at hmain
    case returned => rfl
    case join => simp [hexit] at hmain
    case readOpcode =>
      split at hmain
      · split_ifs at hmain
      · simp [hdone, ServerStage.holdsResp] at hmain
    case readResult =>
      split at hmain
      · cases hmain
      · simp [hdone, ServerStage.holdsResp] at hmain
    all_goals split_ifs at hmain
  · rcases h.asked hread with hreq | hwrite
    · simp [serverStep, hread, hreq] at hserver
    · simp only [mainStep, hwrite] at hmain
      split_ifs at hmain

/-! ### The two kinds of run -/

/-- What the server has written at a stage, if the pipe had a reader. -/
def ServerStage.sent : ServerStage → List UInt8
  | .writeResult => [opCodeDisconnect]
  | .closeResp | .remove | .done => [opCodeDisconnect, resultClosed]
  | _ => []

/-- What the main thread has read at a stage. -/
def MainStage.got : MainStage → List UInt8
  | .callResult | .readResult => [opCodeDisconnect]
  | .join | .returned => [opCodeDisconnect, resultClosed]
  | _ => []

/-- So far the response pipe has been open whenever the main thread needed it. -/
structure InTime (s : State) : Prop where
  ok : s.error = false
  received : s.received = s.main.got
  answered : s.received ++ s.response = s.server.sent
  asked : s.main = .write ↔ s.server = .read ∧ s.request = false
  eof : s.server.holdsNotif = true → s.notif.reading = true
  late : s.notif.holdsResp = false → s.main.early = false
  joined : s.main = .returned → s.notif = .exited

/-- The response pipe was closed before the main thread called its second read. -/
structure TooLate (s : State) : Prop where
  closed : s.notif.holdsResp = false
  failed : s.main.early = true ∨ s.error = true

/-- The notification thread closes the response pipe only once the main thread has called
its second read. -/
def timely (s : State) (l : Label) : Prop :=
  l = .notif → s.notif = .closeResp → s.main.early = false

theorem inTime_initial (notifications : ℕ) (halfRead : Bool) :
    InTime (State.initial notifications halfRead) := by
  cases halfRead <;> constructor <;> simp [State.initial, MainStage.got, ServerStage.sent,
    ServerStage.holdsNotif, NotifStage.reading, NotifStage.holdsResp]

namespace InTime

variable {s t : State}

/-- While the server writes its answer the pipe has a reader. -/
theorem reader (h : InTime s) (hst : s.server = .writeOpcode ∨ s.server = .writeResult) :
    s.respReader = true := by
  have hans := h.answered
  have hlate := h.late
  rw [h.received] at hans
  cases hm : s.main with
  | readOpcode | readResult => simp [State.respReader, hm]
  | write | callOpcode | callResult =>
    cases hr : s.notif.holdsResp with
    | true => simp [State.respReader, hr]
    | false => exact absurd (hlate hr) (by rw [hm]; decide)
  | join | returned =>
    -- both bytes would have been read already
    rw [hm] at hans
    rcases hst with hst | hst <;> simp [hst, MainStage.got, ServerStage.sent] at hans

theorem respOpen (h : InTime s) (hm : s.main.early = true) : s.notif.holdsResp = true := by
  by_contra hr
  rw [h.late (by simpa using hr)] at hm
  cases hm

/-- The server moves on with what it has sent, and no earlier than the end of its notifications. -/
theorem server_moved (h : InTime s) (st : ServerStage) (bytes : List UInt8)
    (hst : s.server ≠ .read) (hst' : st ≠ .read) (hsent : st.sent = s.server.sent ++ bytes)
    (hnotif : st.holdsNotif = true → s.server.holdsNotif = true) :
    InTime { s with response := s.response ++ bytes, server := st } where
  ok := h.ok
  received := h.received
  answered := by rw [hsent, ← h.answered, List.append_assoc]
  asked := by simpa [hst, hst'] using h.asked
  eof hn := h.eof (hnotif hn)
  late := h.late
  joined := h.joined

theorem serverStep (h : InTime s) (hs : serverStep s = some t) : InTime t := by
  cases hst : s.server <;> simp only [Client.serverStep, hst] at hs
  case read =>
    obtain ⟨hreq, hs⟩ := Option.ite_none_right_eq_some.mp hs
    cases hs
    exact {
      ok := h.ok
      received := h.received
      answered := by rw [h.answered, hst]; rfl
      asked := by simp [h.asked, hreq]
      eof := fun _ => h.eof (by rw [hst]; rfl)
      late := h.late
      joined := h.joined }
  case writeOpcode =>
    rw [if_pos (h.reader (.inl hst))] at hs
    cases hs
    exact h.server_moved _ _ (by simp [hst]) nofun (by rw [hst]; rfl) nofun
  case writeResult =>
    rw [if_pos (h.reader (.inr hst))] at hs
    cases hs
    exact h.server_moved _ _ (by simp [hst]) nofun (by rw [hst]; rfl) nofun
  case done => cases hs
  all_goals
    cases hs
    have hmoved := fun st => h.server_moved st [] (by simp [hst])
    simp only [List.append_nil] at hmoved
    exact hmoved _ nofun (by rw [hst]; rfl) (by rw [hst]; decide)

/-- The main thread moves on with the bytes it has taken from the pipe. -/
theorem main_moved (h : InTime s) {m : MainStage} {rest bytes : List UInt8}
    (hst : s.main ≠ .write) (hm : m ≠ .write) (hgot : bytes = m.got)
    (hans : bytes ++ rest = s.server.sent) (hlate : m.early = false ∨ s.notif.holdsResp = true)
    (hjoin : m = .returned → s.notif = .exited) :
    InTime { s with response := rest, received := bytes, main := m } where
  ok := h.ok
  received := hgot
  answered := hans
  asked := by simpa [hst, hm] using h.asked
  eof := h.eof
  late hr := hlate.resolve_right (by simp [hr])
  joined := hjoin

/-- A read finds a byte, or the server is still going to write it. -/
theorem byte_or_open (h : InTime s) (hm : s.received.length < 2) (hnil : s.response = []) :
    s.server.holdsResp = true := by
  have hans := h.answered
  rw [hnil, List.append_nil] at hans
  rw [hans] at hm
  revert hm
  cases s.server <;> decide

/-- The next byte of the pipe is the next byte of the answer. -/
theorem next_byte (h : InTime s) {ch : UInt8} {rest : List UInt8}
    (hresp : s.response = ch :: rest) :
    s.received ++ ch :: rest <+: [opCodeDisconnect, resultClosed] := by
  rw [← hresp, h.answered]
  cases s.server <;> simp [ServerStage.sent]

theorem mainStep (h : InTime s) (hs : mainStep s = some t) : InTime t := by
  have hrec := h.received
  have hans := h.answered
  cases hst : s.main <;> simp only [Client.mainStep, hst] at hs <;>
    simp only [hst, MainStage.got] at hrec
  case write =>
    have hserver := h.asked.mp hst
    have hreading := h.eof (by rw [hserver.1]; rfl)
    have hreq : s.notif.holdsReq = true ∧ s.notif.holdsResp = true := by
      revert hreading
      cases s.notif <;> decide
    rw [if_pos hreq.1] at hs
    cases hs
    exact {
      ok := h.ok
      received := hrec
      answered := hans
      asked := by simp
      eof := h.eof
      late := fun hr => by rw [hreq.2] at hr; cases hr
      joined := nofun }
  case callOpcode =>
    have hresp := h.respOpen (by rw [hst]; rfl)
    rw [if_pos hresp] at hs
    cases hs
    exact h.main_moved (by simp [hst]) nofun hrec hans (.inr hresp) nofun
  case readOpcode =>
    have hresp := h.respOpen (by rw [hst]; rfl)
    cases hr : s.response with
    | nil =>
      have hopen := h.byte_or_open (by rw [hrec]; decide) hr
      simp [hr, hopen] at hs
    | cons ch rest =>
      have hnext := h.next_byte hr
      rw [hrec, List.nil_append, List.cons_prefix_cons] at hnext
      simp only [hr, if_pos hnext.1] at hs
      cases hs
      refine h.main_moved (by simp [hst]) nofun ?_ ?_ (.inr hresp) nofun
      · rw [hrec, hnext.1]
        rfl
      · rw [List.append_assoc, ← hans, hr]
        rfl
  case callResult =>
    have hresp := h.respOpen (by rw [hst]; rfl)
    rw [if_pos hresp] at hs
    cases hs
    exact h.main_moved (by simp [hst]) nofun hrec hans (.inl rfl) nofun
  case readResult =>
    cases hr : s.response with
    | nil =>
      have hopen := h.byte_or_open (by rw [hrec]; decide) hr
      simp [hr, hopen] at hs
    | cons ch rest =>
      have hnext := h.next_byte hr
      rw [hrec, List.singleton_append, List.cons_prefix_cons, List.cons_prefix_cons] at hnext
      simp only [hr] at hs
      cases hs
      refine h.main_moved (by simp [hst]) nofun ?_ ?_ (.inl rfl) nofun
      · rw [hrec, hnext.2.1]
        rfl
      · rw [List.append_assoc, ← hans, hr]
        rfl
  case join =>
    obtain ⟨hexit, hs⟩ := Option.ite_none_right_eq_some.mp hs
    cases hs
    exact h.main_moved (by simp [hst]) nofun hrec hans (.inl rfl) fun _ => hexit
  case returned => cases hs

/-- The notification thread moves on; it leaves its reads only at the end of the pipe. -/
theorem notif_moved (h : InTime s) {n : ℕ} {st : NotifStage}
    (hread : s.server.holdsNotif = true → st.reading = true)
    (hlate : st.holdsResp = false → s.main.early = false)
    (hexit : s.notif = .exited → st = .exited) :
    InTime { s with notifications := n, notif := st } where
  ok := h.ok
  received := h.received
  answered := h.answered
  asked := h.asked
  eof := hread
  late := hlate
  joined hm := hexit (h.joined hm)

theorem notifRead (h : InTime s) {next : NotifStage} (hst : s.notif.reading = true)
    (hnext : next.reading = true) (hs : notifRead s next = some t) : InTime t := by
  have hexit : s.notif ≠ .exited := by
    intro he
    rw [he] at hst
    cases hst
  have hresp : next.holdsResp = true := by
    revert hnext
    cases next <;> decide
  simp only [Client.notifRead] at hs
  split_ifs at hs with hpos hopen
  · cases hs
    exact h.notif_moved (fun _ => hnext) (by rw [hresp]; exact nofun) fun he => absurd he hexit
  · cases hs
    exact h.notif_moved (fun hn => absurd hn hopen) nofun fun he => absurd he hexit

theorem notifStep (h : InTime s) (hl : timely s .notif) (hs : notifStep s = some t) :
    InTime t := by
  -- past its reads the pipe is at its end
  have hclosed : s.notif.reading = false → s.server.holdsNotif = true → False := by
    intro hr hn
    rw [h.eof hn] at hr
    cases hr
  cases hst : s.notif <;> simp only [Client.notifStep, hst] at hs
  case readKey => exact h.notifRead (by rw [hst]; rfl) rfl hs
  case readValue => exact h.notifRead (by rw [hst]; rfl) rfl hs
  case exited => cases hs
  case closeResp =>
    cases hs
    exact h.notif_moved (fun hn => (hclosed (by rw [hst]; rfl) hn).elim) (fun _ => hl rfl hst)
      fun _ => rfl
  all_goals
    cases hs
    exact h.notif_moved (fun hn => (hclosed (by rw [hst]; rfl) hn).elim) nofun
      fun he => by rw [hst] at he; cases he

theorem step {l : Label} (h : InTime s) (hl : timely s l) (hs : step s l = some t) :
    InTime t := by
  cases l with
  | server => exact h.serverStep hs
  | main => exact h.mainStep hs
  | notif => exact h.notifStep hl hs
  | notify =>
    obtain ⟨hopen, hs⟩ := Option.ite_none_right_eq_some.mp hs
    cases hs
    exact h.notif_moved h.eof h.late id

end InTime

namespace TooLate

variable {s t : State}

theorem of_close (h : ¬ timely s .notif) (hs : step s .notif = some t) : TooLate t := by
  have hst : s.notif = .closeResp ∧ s.main.early = true := by
    by_contra hn
    refine h fun _ hc => ?_
    by_contra he
    exact hn ⟨hc, by simpa using he⟩
  simp only [Client.step, notifStep, hst.1] at hs
  cases hs
  exact ⟨rfl, .inl hst.2⟩

theorem step {l : Label} (h : TooLate s) (hs : step s l = some t) : TooLate t := by
  have hexit : s.notif = .exited := by
    have := h.closed
    revert this
    cases s.notif <;> decide
  cases l with
  | server =>
    have hkeep : t.notif = s.notif ∧ t.main = s.main ∧ t.error = s.error := by
      cases hst : s.server <;> simp only [Client.step, serverStep, hst] at hs <;>
        (try split_ifs at hs) <;> first | (cases hs; exact ⟨rfl, rfl, rfl⟩) | cases hs
    exact ⟨hkeep.1 ▸ h.closed, by rw [hkeep.2.1, hkeep.2.2]; exact h.failed⟩
  | main =>
    cases hst : s.main <;> simp only [Client.step, mainStep, hst] at hs
    case write =>
      rw [if_neg (by rw [hexit]; decide)] at hs
      cases hs
      exact ⟨h.closed, .inr rfl⟩
    case callOpcode =>
      rw [if_neg (by rw [h.closed]; decide)] at hs
      cases hs
      exact ⟨h.closed, .inr rfl⟩
    case readOpcode =>
      split at hs
      · split_ifs at hs <;> cases hs
        · exact ⟨h.closed, .inl rfl⟩
        · exact ⟨h.closed, .inr rfl⟩
      · split_ifs at hs
        cases hs
        exact ⟨h.closed, .inr rfl⟩
    case callResult =>
      rw [if_neg (by rw [h.closed]; decide)] at hs
      cases hs
      exact ⟨h.closed, .inr rfl⟩
    case readResult =>
      have herr : s.error = true := h.failed.resolve_left (by rw [hst]; decide)
      split at hs
      · cases hs
        exact ⟨h.closed, .inr herr⟩
      · split_ifs at hs
        cases hs
        exact ⟨h.closed, .inr rfl⟩
    case join =>
      have herr : s.error = true := h.failed.resolve_left (by rw [hst]; decide)
      rw [if_pos hexit] at hs
      cases hs
      exact ⟨h.closed, .inr herr⟩
    case returned => cases hs
  | notif => simp [Client.step, notifStep, hexit] at hs
  | notify =>
    obtain ⟨-, hs⟩ := Option.ite_none_right_eq_some.mp hs
    cases hs
    exact ⟨h.closed, h.failed⟩

end TooLate

/-! ### Runs -/

section Runs
variable {notifications : ℕ} {halfRead : Bool} {ls : List Label} {s : State}

/-- In a run all of whose steps are timely the answer gets through. -/
theorem inTime_of_run
    (hrun : Run (guarded timely (stepOf step)) (State.initial notifications halfRead) ls s) :
    InTime s :=
  hrun.invariant (inTime_initial _ _) fun _ _ _ h hs => h.step hs.1 hs.2

/-- A run is timely so far, or the answer is lost. -/
theorem timely_or_tooLate (hrun : Run (stepOf step) (State.initial notifications halfRead) ls s) :
    Run (guarded timely (stepOf step)) (State.initial notifications halfRead) ls s ∨ TooLate s := by
  induction hrun with
  | nil => exact .inl .nil
  | @snoc ls u v l hr hs ih =>
    rcases ih with ih | ih
    · by_cases hl : timely u l
      · exact .inl (ih.snoc ⟨hl, hs⟩)
      · cases l with
        | notif => exact .inr (.of_close hl hs)
        | server | main | notify => exact absurd (fun he => by cases he) hl
    · exact .inr (ih.step hs)

/-- A run without notifications ends, and each of them is good for one step more. -/
theorem steps_le (hrun : Run (stepOf step) (State.initial notifications halfRead) ls s) :
    s.left + ls.length ≤ (State.initial notifications halfRead).left + 2 * ls.count .notify := by
  induction hrun with
  | nil => simp
  | @snoc ls u v l hr hs ih =>
    have hleft := step_left hs
    rw [List.length_append, List.count_append, List.length_singleton]
    omega

/-- The client's `kvs_disconnect` always comes to its end, and it has read the answer and
returns 0 exactly in the runs in which the notification thread closes the response pipe
after the main thread has called its second read. -/
theorem disconnect_ok_iff (hrun : Run (stepOf step) (State.initial notifications halfRead) ls s) :
    (s.main = .returned ∨ ∃ l, l ≠ .notify ∧ (step s l).isSome = true) ∧
      ls.length ≤ (State.initial notifications halfRead).left + 2 * ls.count .notify ∧
      (s.main = .returned →
        (s.error = false ∧ s.received = [opCodeDisconnect, resultClosed] ↔
          Run (guarded timely (stepOf step)) (State.initial notifications halfRead) ls s)) := by
  have hlive : Live s := hrun.invariant (live_initial _ _) fun _ _ _ h hs => h.step hs
  have hsteps := steps_le hrun
  refine ⟨?_, by omega, fun hret => ⟨fun hok => ?_, fun htimely => ?_⟩⟩
  · by_contra hn
    rw [not_or] at hn
    refine hn.1 (returned_of_stuck hlive fun l hl => ?_)
    by_contra hstep
    exact hn.2 ⟨l, hl, Option.isSome_iff_ne_none.mpr hstep⟩
  · refine (timely_or_tooLate hrun).resolve_right fun hlate => ?_
    rcases hlate.failed with he | he
    · rw [hret] at he
      cases he
    · rw [hok.1] at he
      cases he
  · have h := inTime_of_run htimely
    exact ⟨h.ok, by rw [h.received, hret]; rfl⟩

end Runs

/-- The server answers while the notification thread still waits for the processor. -/
def prompt : List Label :=
  [.main, .server, .server, .server, .server, .server, .server, .main, .main, .main, .main,
    .notif, .notif, .notif, .notif, .main]

theorem disconnect_ok_prompt :
    ∃ s, Run (stepOf step) (State.initial 0 false) prompt s ∧
      (s.main = .returned ∨ ∃ l, l ≠ .notify ∧ (step s l).isSome = true) ∧
      prompt.length ≤ (State.initial 0 false).left + 2 * prompt.count .notify ∧
      (s.main = .returned →
        (s.error = false ∧ s.received = [opCodeDisconnect, resultClosed] ↔
          Run (guarded timely (stepOf step)) (State.initial 0 false) prompt s)) := by
  have hrun : Run (stepOf step) (State.initial 0 false) prompt _ := run_of_execute rfl
  exact ⟨_, hrun, disconnect_ok_iff hrun⟩

/-- The server closes the notification pipe, and the notification thread closes the other
two before the server answers. -/
def hasty : List Label :=
  [.main, .server, .server, .server, .server, .notif, .notif, .notif, .notif, .main, .main]

theorem not_disconnect_ok :
    ∃ s, Run (stepOf step) (State.initial 0 false) hasty s ∧ s.main = .returned ∧
      s.error = true ∧ s.received = [] :=
  ⟨_, run_of_execute rfl, rfl, rfl, rfl⟩

end IstKvs.Client
