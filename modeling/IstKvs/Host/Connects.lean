import IstKvs.Client.Paths
import IstKvs.Common.Io
import IstKvs.Systems.Stores

/-! The connect message on the server pipe: what `read_connect_message` does with the calls of
`read` that bring it in, and the stores that the host and the client thread make of its three
path fields. -/

namespace IstKvs.Host

open IstKvs.Store IstKvs.Sessions IstKvs.Client IstKvs.Common IstKvs.Systems.Stores

/-! ### Reading the message -/

/-- The size of a connect message. -/
def connectSize : ℕ := 3 * maxPipePathLength + 1

/-- The value of `read_connect_message` with the paths it stores, and what is left of the pipe
and of the results of `read`. -/
structure ConnectRead where
  status : ℤ
  paths : Option Paths
  pipe : List UInt8
  results : List ReadResult
  deriving DecidableEq

/-- What follows the call of `read_all`. -/
def afterRead (r : ReadAll) : ConnectRead :=
  if r.exit.status ≤ 0 ∨ r.call.intr = some true then ⟨1, none, r.pipe, r.results⟩
  else match readConnectMessage r.call.buffer with
    | none => ⟨1, none, r.pipe, r.results⟩
    | some paths => ⟨0, some paths, r.pipe, r.results⟩

/-- `read_connect_message` on the server pipe; `none` while a call of `read` waits. -/
def readConnect (pipe : List UInt8) (results : List ReadResult) : Option ConnectRead :=
  (readAll connectSize (some false) pipe results).map afterRead

/-- Either nothing is taken from the pipe, or a whole message, and then a connect request is
not lost. -/
def KeepsRequest (pipe : List UInt8) (r : ConnectRead) : Prop :=
  (r.pipe = pipe ∧ r.status = 1) ∨
    ∃ message, message.length = connectSize ∧ pipe = message ++ r.pipe ∧
      (message.head? = some opCodeConnect → r.status = 0 ∧ r.paths = readConnectMessage message)

/-- The results of `read` under which a request is kept: all calls return bytes, or none does, or
the interrupted one was no connect request. -/
def Uninterrupted (pipe : List UInt8) (used : List ReadResult) : Prop :=
  (∀ x ∈ used, x.isBytes = true) ∨ (∀ x ∈ used, x.isBytes = false) ∨
    (pipe.head? ≠ some opCodeConnect ∧ .endOfFile ∉ used ∧ .failed ∉ used)

instance (pipe : List UInt8) (used : List ReadResult) : Decidable (Uninterrupted pipe used) :=
  inferInstanceAs (Decidable (_ ∨ _ ∨ _))

theorem afterRead_pipe (r : ReadAll) :
    (afterRead r).pipe = r.pipe ∧ (afterRead r).results = r.results := by
  rw [afterRead]
  split_ifs
  · exact ⟨rfl, rfl⟩
  · cases readConnectMessage r.call.buffer <;> exact ⟨rfl, rfl⟩

theorem afterRead_refused {r : ReadAll} (h : r.exit ≠ .full ∨ r.call.intr = some true) :
    afterRead r = ⟨1, none, r.pipe, r.results⟩ := by
  rw [afterRead, if_pos]
  refine h.imp_left fun hne => ?_
  cases hexit : r.exit with
  | full => exact absurd hexit hne
  | _ => decide

theorem afterRead_whole {r : ReadAll} (hfull : r.exit = .full) (hintr : r.call.intr = some false)
    (hconnect : r.call.buffer.head? = some opCodeConnect) :
    (afterRead r).status = 0 ∧ (afterRead r).paths = readConnectMessage r.call.buffer := by
  have hpaths : (readConnectMessage r.call.buffer).isSome := by
    rw [readConnectMessage, if_pos hconnect]
    rfl
  obtain ⟨paths, hpaths⟩ := Option.isSome_iff_exists.mp hpaths
  rw [afterRead, if_neg (by simp [hfull, hintr, ReadExit.status]), hpaths]
  exact ⟨rfl, rfl⟩

section Kept
variable {pipe : List UInt8} {used : List ReadResult} {r : ReadAll}
  (hr : Reads ⟨connectSize, some false, []⟩ pipe used r)
include hr

theorem message_eq {message : List UInt8} (hlen : message.length = connectSize)
    (hpipe : pipe = message ++ r.pipe) : message = r.call.buffer ∧ r.exit = .full := by
  have hmoved := hr.pipe_eq
  have he := List.append_inj_left' (hpipe.symm.trans hmoved) rfl
  exact ⟨he, hr.full.mpr (by rw [← he]; exact hlen)⟩

theorem keepsRequest_of_short (hexit : r.exit ≠ .full) :
    KeepsRequest pipe (afterRead r) ↔ r.call.buffer = [] := by
  rw [afterRead_refused (.inl hexit)]
  have hmoved := hr.pipe_eq
  constructor
  · rintro (⟨hpipe, -⟩ | ⟨message, hlen, hpipe, -⟩)
    · rw [← hpipe] at hmoved
      simpa using hmoved
    · exact absurd (message_eq hr hlen hpipe).2 hexit
  · intro hb
    rw [hb] at hmoved
    exact .inl ⟨hmoved.symm, rfl⟩

theorem keepsRequest_of_interrupted (hfull : r.exit = .full) (hintr : r.call.intr = some true) :
    KeepsRequest pipe (afterRead r) ↔ pipe.head? ≠ some opCodeConnect := by
  rw [afterRead_refused (.inr hintr)]
  have hmoved := hr.pipe_eq
  have hlen := hr.full.mp hfull
  have hhead : pipe.head? = r.call.buffer.head? := by
    rw [hmoved]
    cases hb : r.call.buffer with
    | nil =>
      rw [hb] at hlen
      cases hlen
    | cons b bs => rfl
  constructor
  · rintro (⟨hpipe, -⟩ | ⟨message, hlen', hpipe, hkept⟩) hconnect
    · rw [← hpipe] at hmoved
      have hb : r.call.buffer = [] := by simpa using hmoved
      rw [hb] at hlen
      cases hlen
    · rw [(message_eq hr hlen' hpipe).1, ← hhead] at hkept
      cases (hkept hconnect).1
  · exact fun hne => .inr ⟨r.call.buffer, hlen, hmoved, fun hc => absurd (hhead.trans hc) hne⟩

theorem keepsRequest_afterRead : KeepsRequest pipe (afterRead r) ↔ Uninterrupted pipe used := by
  have hunmoved : r.call.buffer = [] ↔ ∀ x ∈ used, x.isBytes = false := hr.unmoved
  have hnotBytes : ∀ x ∈ used, x.isBytes = false → ¬ ∀ x ∈ used, x.isBytes = true :=
    fun x hx hb h => by simp [h x hx] at hb
  cases hexit : r.exit with
  | full =>
    have hlen := hr.full.mp hexit
    have hne : r.call.buffer ≠ [] := by
      intro hb
      rw [hb] at hlen
      cases hlen
    have heof : .endOfFile ∉ used := fun h => by simpa [hexit] using hr.endOfFile.mpr h
    have hfailed : .failed ∉ used := fun h => by simpa [hexit] using hr.failed.mpr h
    by_cases hi : .interrupted ∈ used
    · rw [keepsRequest_of_interrupted hr hexit (by rw [hr.intr, if_pos hi]; rfl), Uninterrupted,
        or_iff_right (hnotBytes _ hi rfl), or_iff_right (fun h => hne (hunmoved.mpr h))]
      exact ⟨fun h => ⟨h, heof, hfailed⟩, And.left⟩
    · have hbytes : ∀ x ∈ used, x.isBytes = true := by
        intro x hx
        cases x with
        | bytes n => rfl
        | endOfFile => exact absurd hx heof
        | interrupted => exact absurd hx hi
        | failed => exact absurd hx hfailed
      refine iff_of_true (.inr ⟨r.call.buffer, hlen, ?_, fun hc => ?_⟩) (.inl hbytes)
      · rw [(afterRead_pipe r).1]
        exact hr.pipe_eq
      · exact afterRead_whole hexit (by rw [hr.intr, if_neg hi]) hc
  | interrupted =>
    have hb := hr.interrupted hexit
    rw [keepsRequest_of_short hr (by rw [hexit]; nofun)]
    exact iff_of_true hb (.inr (.inl (hunmoved.mp hb)))
  | endOfFile =>
    have hmem := hr.endOfFile.mp hexit
    rw [keepsRequest_of_short hr (by rw [hexit]; nofun), hunmoved, Uninterrupted,
      or_iff_right (hnotBytes _ hmem rfl), or_iff_left (fun h => h.2.1 hmem)]
  | failed =>
    have hmem := hr.failed.mp hexit
    rw [keepsRequest_of_short hr (by rw [hexit]; nofun), hunmoved, Uninterrupted,
      or_iff_right (hnotBytes _ hmem rfl), or_iff_left (fun h => h.2.2 hmem)]

end Kept

theorem reads_of_readConnect {pipe : List UInt8} {results : List ReadResult} {r : ConnectRead}
    (h : readConnect pipe results = some r) :
    ∃ q used, r = afterRead q ∧ results = used ++ r.results ∧
      Reads ⟨connectSize, some false, []⟩ pipe used q := by
  obtain ⟨q, hq, rfl⟩ := Option.map_eq_some_iff.mp h
  obtain ⟨hi, -⟩ | ⟨-, used, hused, hr⟩ := readAll_spec hq
  · cases hi
  · exact ⟨q, used, rfl, by rw [(afterRead_pipe q).2]; exact hused, hr⟩

/-- `read_connect_message` makes the calls of `read` with the results `used`, whatever the later
ones are, and keeps the request exactly when these do not interrupt it. -/
theorem keepsRequest_iff {pipe : List UInt8} {used later : List ReadResult} {r : ConnectRead}
    (h : readConnect pipe (used ++ later) = some r) (hlater : r.results = later) :
    KeepsRequest pipe r ↔ Uninterrupted pipe used := by
  obtain ⟨q, used', hq, hused, hr⟩ := reads_of_readConnect h
  rw [hlater] at hused
  rw [hq, List.append_cancel_right hused]
  exact keepsRequest_afterRead hr

/-- The bytes of a connect request with one-letter paths. -/
def shortConnect : List UInt8 :=
  writeConnectMessage ⟨.ofBuffer (chars ['q']), .ofBuffer (chars ['r']), .ofBuffer (chars ['n'])⟩

theorem keepsRequest_iff_twoPieces : ∃ r,
    readConnect shortConnect ([.bytes 0, .bytes 119] ++ [.interrupted]) = some r ∧
      KeepsRequest shortConnect r := by
  obtain ⟨r, hr⟩ := Option.isSome_iff_exists.mp (show
    (readConnect shortConnect ([.bytes 0, .bytes 119] ++ [.interrupted])).isSome by
      decide +kernel)
  have hresults : (readConnect shortConnect ([.bytes 0, .bytes 119] ++ [.interrupted])).map
      ConnectRead.results = some [.interrupted] := by decide +kernel
  rw [hr] at hresults
  exact ⟨r, hr, (keepsRequest_iff hr (Option.some.inj hresults)).mpr (by decide)⟩

/-- A signal after the first byte: the whole request is taken and thrown away. -/
theorem not_keepsRequest : ∃ r, readConnect shortConnect [.bytes 0, .interrupted, .bytes 119] =
    some r ∧ ¬ KeepsRequest shortConnect r := by
  obtain ⟨r, hr⟩ := Option.isSome_iff_exists.mp (show
    (readConnect shortConnect [.bytes 0, .interrupted, .bytes 119]).isSome by decide +kernel)
  have hresults : (readConnect shortConnect [.bytes 0, .interrupted, .bytes 119]).map
      ConnectRead.results = some [] := by decide +kernel
  rw [hr] at hresults
  obtain ⟨q, used, hq, hused, hreads⟩ := reads_of_readConnect hr
  rw [Option.some.inj hresults, List.append_nil] at hused
  refine ⟨r, hr, fun hkept => ?_⟩
  rw [hq, keepsRequest_afterRead hreads, ← hused] at hkept
  revert hkept
  decide

/-! ### Storing the paths

`strncpy` makes a store for each of its `n` bytes, and `strcpy` one for each byte of the string
and one for its NUL. -/

/-- The arrays of the host thread, of the `ClientInfo` and of the client thread. -/
inductive Destination
  | opCode
  | reqPipe | respPipe | notifPipe
  | reqFifo | respFifo | notifFifo
  | reqPath | respPath | notifPath
  deriving DecidableEq

def Destination.size : Destination → ℕ
  | .opCode => 1
  | _ => maxPipePathLength

/-- What `strncpy` stores: the bytes before a NUL, and NULs up to the size. -/
def strncpyBytes (src : List UInt8) (n : ℕ) : List UInt8 :=
  let s := CStr.ofBuffer (src.take n)
  s.bytes ++ List.replicate (n - s.length) 0

/-- The stores of `read_connect_message` into a path array, from an offset of its buffer. -/
def fieldStores (buffer : List UInt8) (offset : ℕ) : List (ℕ × UInt8) :=
  storesAt 0 (strncpyBytes (buffer.drop offset) maxPipePathLength) ++ [(maxPipePathLength, 0)]

def strcpyStores (s : CStr) : List (ℕ × UInt8) := storesAt 0 (s.bytes ++ [0])

/-- The paths that `read_connect_message` leaves in the arrays of the host thread. -/
def hostPaths (buffer : List UInt8) : Paths :=
  ⟨pathField buffer 1, pathField buffer (1 + maxPipePathLength),
    pathField buffer (1 + 2 * maxPipePathLength)⟩

/-- The string that `strcpy` copies to an array. The host thread copies its paths to a
`ClientInfo` at `fresh`, and the client thread those that it finds there, when `after` follows
it in memory. -/
def copied (buffer : List UInt8) (fresh : Vector UInt8 sizeofClientInfo) (after : List UInt8) :
    Destination → Option CStr
  | .opCode | .reqPipe | .respPipe | .notifPipe => none
  | .reqFifo => some (hostPaths buffer).req
  | .respFifo => some (hostPaths buffer).resp
  | .notifFifo => some (hostPaths buffer).notif
  | .reqPath => some (loadClientInfo (storeClientInfo fresh (hostPaths buffer)) after).req
  | .respPath => some (loadClientInfo (storeClientInfo fresh (hostPaths buffer)) after).resp
  | .notifPath => some (loadClientInfo (storeClientInfo fresh (hostPaths buffer)) after).notif

/-- The stores that a message with any first byte leads to. -/
def connectStores (buffer : List UInt8) (fresh : Vector UInt8 sizeofClientInfo)
    (after : List UInt8) (d : Destination) : List (ℕ × UInt8) :=
  if d = .opCode then [(0, buffer.headD 0), (1, 0)]
  else if buffer.head? ≠ some opCodeConnect then []
  else match d with
    | .reqPipe => fieldStores buffer 1
    | .respPipe => fieldStores buffer (1 + maxPipePathLength)
    | .notifPipe => fieldStores buffer (1 + 2 * maxPipePathLength)
    | d => (copied buffer fresh after d).elim [] strcpyStores

def StoresInside (buffer : List UInt8) (fresh : Vector UInt8 sizeofClientInfo)
    (after : List UInt8) : Prop :=
  ∀ d : Destination, Inside d.size (connectStores buffer fresh after d)

theorem hostPaths_eq {buffer : List UInt8} (h : buffer.head? = some opCodeConnect) :
    readConnectMessage buffer = some (hostPaths buffer) := if_pos h

theorem ofBuffer_strncpyBytes (buffer : List UInt8) (offset : ℕ) :
    CStr.ofBuffer (strncpyBytes (buffer.drop offset) maxPipePathLength ++ [0]) =
      pathField buffer offset := by
  have hcut : ∀ src : List UInt8, CStr.ofBuffer (src ++ [0]) = CStr.ofBuffer src := by
    intro src
    apply CStr.ext_bytes
    simp only [CStr.ofBuffer, List.takeWhile_append]
    split_ifs with hlen
    · rw [(List.takeWhile_prefix _).eq_of_length hlen]
      simp
    · rfl
  have hpad : ∀ (s : CStr) (k : ℕ), CStr.ofBuffer (s.bytes ++ List.replicate k 0 ++ [0]) = s := by
    intro s k
    rw [List.append_assoc, ← List.replicate_succ', List.replicate_succ]
    exact s.ofBuffer_terminated _
  rw [pathField, hcut ((buffer.drop offset).take maxPipePathLength)]
  exact hpad _ _

/-- The NUL behind a path array is always outside it. -/
theorem not_inside_fieldStores (buffer : List UInt8) (offset : ℕ) :
    ¬ Inside maxPipePathLength (fieldStores buffer offset) := fun h =>
  lt_irrefl _ (h _ (List.mem_append_right _ (List.mem_singleton_self _)))

theorem inside_strcpyStores {size : ℕ} {s : CStr} :
    Inside size (strcpyStores s) ↔ s.length < size := by
  rw [strcpyStores, inside_storesAt, or_iff_right (by simp), Nat.zero_add, List.length_append]
  rfl

/-- Which arrays of a connect request are written past their ends: those of the host thread in
any case, the others when the string copied to them has no room for its NUL. -/
theorem inside_connectStores_iff {buffer : List UInt8} (hop : buffer.head? = some opCodeConnect)
    (fresh : Vector UInt8 sizeofClientInfo) (after : List UInt8) (d : Destination) :
    Inside d.size (connectStores buffer fresh after d) ↔
      ∃ s, copied buffer fresh after d = some s ∧ s.length < maxPipePathLength := by
  have hfields := not_inside_fieldStores buffer
  cases d with
  | opCode =>
    refine iff_of_false (fun h => ?_) (by rintro ⟨s, ⟨⟩, -⟩)
    exact absurd (h (1, 0) (by simp [connectStores])) (by decide)
  | reqPipe => simpa [connectStores, hop, copied, Destination.size] using hfields 1
  | respPipe => simpa [connectStores, hop, copied, Destination.size] using hfields _
  | notifPipe => simpa [connectStores, hop, copied, Destination.size] using hfields _
  | _ => simp [connectStores, hop, copied, inside_strcpyStores, Destination.size]

/-- No message keeps all its stores inside the arrays: the second byte of the opcode is stored
behind it. -/
theorem not_storesInside (buffer : List UInt8) (fresh : Vector UInt8 sizeofClientInfo)
    (after : List UInt8) : ¬ StoresInside buffer fresh after := fun h =>
  absurd (h .opCode (1, 0) (by simp [connectStores])) (by decide)

theorem not_storesInside_shortConnect :
    ¬ StoresInside shortConnect (Vector.replicate sizeofClientInfo 0) [] := by
  intro h
  have hreq := (inside_connectStores_iff (by decide) _ _ .reqPipe).mp (h .reqPipe)
  obtain ⟨s, hs, -⟩ := hreq
  cases hs

end IstKvs.Host
