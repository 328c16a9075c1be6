import IstKvs.Sessions.Requests

/-! The paths of a client's pipes, from the client's arguments to the calls of `open`
in the server. The client sends each path in a field of 40 bytes, filled with NULs;
the host thread copies the three strings into a `ClientInfo`, and the client thread
copies them out again, both with `strcpy`. A store past the end of an array on the
stack is taken to hit nothing else; the bytes after the `ClientInfo` belong to the
allocator and may be anything when the client thread reads them. -/

namespace IstKvs.Client

open IstKvs.Store IstKvs.Sessions

def maxPipePathLength : ℕ := 40

/-- The paths of the request, response and notification pipes. -/
structure Paths where
  req : CStr
  resp : CStr
  notif : CStr
  deriving DecidableEq

def Paths.all (p : Paths) : List CStr := [p.req, p.resp, p.notif]

/-! ### The client -/

/-- A prefix of the program with the id of the client after it. -/
def withId (pre : List Char) (hpre : (0 : UInt8) ∉ chars pre) (id : CStr) : CStr where
  bytes := chars pre ++ id.bytes
  nulFree := by simpa using ⟨hpre, id.nulFree⟩

/-- The paths that the client gives to `mkfifo`. -/
def created (id : CStr) : Paths where
  req := withId ['/', 't', 'm', 'p', '/', 'r', 'e', 'q'] (by decide) id
  resp := withId ['/', 't', 'm', 'p', '/', 'r', 'e', 's', 'p'] (by decide) id
  notif := withId ['/', 't', 'm', 'p', '/', 'n', 'o', 't', 'i', 'f'] (by decide) id

def fillWithNulls (src : CStr) (size : ℕ) : List UInt8 :=
  src.bytes.take size ++ List.replicate (size - src.length) 0

def writeConnectMessage (p : Paths) : List UInt8 :=
  opCodeConnect :: (fillWithNulls p.req maxPipePathLength ++
    fillWithNulls p.resp maxPipePathLength ++ fillWithNulls p.notif maxPipePathLength)

/-! ### The server -/

/-- `strncpy` of a field into a buffer, with the NUL stored after it. -/
def pathField (buffer : List UInt8) (offset : ℕ) : CStr :=
  CStr.ofBuffer ((buffer.drop offset).take maxPipePathLength ++ [0])

def readConnectMessage (buffer : List UInt8) : Option Paths :=
  if buffer.head? = some opCodeConnect then
    some ⟨pathField buffer 1, pathField buffer (1 + maxPipePathLength),
      pathField buffer (1 + 2 * maxPipePathLength)⟩
  else none

/-- `strcpy` to an offset of a piece of memory. -/
def strcpy (mem : List UInt8) (offset : ℕ) (s : CStr) : List UInt8 :=
  mem.take offset ++ (s.bytes ++ 0 :: mem.drop (offset + s.length + 1))

/-- The size of `struct ClientInfo`: `respFifo`, `reqFifo` and `notifFifo`, in that order. -/
def sizeofClientInfo : ℕ := 3 * maxPipePathLength

/-- The host thread's copies into a fresh `ClientInfo`. -/
def storeClientInfo (fresh : Vector UInt8 sizeofClientInfo) (p : Paths) : List UInt8 :=
  strcpy (strcpy (strcpy fresh.toList 0 p.resp) maxPipePathLength p.req) (2 * maxPipePathLength)
    p.notif

/-- The client thread's copies out of it, when `after` follows it in memory. -/
def loadClientInfo (info after : List UInt8) : Paths :=
  let mem := info.take sizeofClientInfo ++ after
  ⟨CStr.ofBuffer (mem.drop maxPipePathLength), CStr.ofBuffer mem,
    CStr.ofBuffer (mem.drop (2 * maxPipePathLength))⟩

/-- The paths that `kvs_connect` opens for the client with an id. For ids of 31 bytes and more a
path that fills its array in the host thread is copied on into what is behind it on the stack, so
there only that the paths are not the created ones is claimed, and not their texts. -/
def opened (fresh : Vector UInt8 sizeofClientInfo) (after : List UInt8) (id : CStr) :
    Option Paths :=
  (readConnectMessage (writeConnectMessage (created id))).map fun p =>
    loadClientInfo (storeClientInfo fresh p) after

/-! ### What arrives -/

/-- A path cut to the size of its field. -/
def cut (s : CStr) : CStr where
  bytes := s.bytes.take maxPipePathLength
  nulFree h := s.nulFree (List.mem_of_mem_take h)

theorem length_cut (s : CStr) : (cut s).length = min maxPipePathLength s.length :=
  List.length_take

theorem cut_of_le {s : CStr} (h : s.length ≤ maxPipePathLength) : cut s = s :=
  CStr.ext_bytes (List.take_of_length_le h)

theorem length_fillWithNulls (s : CStr) (size : ℕ) : (fillWithNulls s size).length = size := by
  rw [fillWithNulls, List.length_append, List.length_take, List.length_replicate, CStr.length]
  omega

theorem ofBuffer_fillWithNulls (s : CStr) :
    CStr.ofBuffer (fillWithNulls s maxPipePathLength ++ [0]) = cut s := by
  have h := (cut s).ofBuffer_terminated
  rw [fillWithNulls]
  cases hn : maxPipePathLength - s.length with
  | zero => simpa [cut] using h []
  | succ n =>
    rw [List.replicate_succ, List.append_assoc]
    exact h _

theorem readConnectMessage_write (p : Paths) :
    readConnectMessage (writeConnectMessage p) = some ⟨cut p.req, cut p.resp, cut p.notif⟩ := by
  have hreq := length_fillWithNulls p.req maxPipePathLength
  have hresp := length_fillWithNulls p.resp maxPipePathLength
  have hnotif := length_fillWithNulls p.notif maxPipePathLength
  have h₁ : pathField (writeConnectMessage p) 1 = cut p.req := by
    rw [← ofBuffer_fillWithNulls, pathField, writeConnectMessage, List.drop_succ_cons,
      List.drop_zero, List.append_assoc, List.take_left' hreq]
  have h₂ : pathField (writeConnectMessage p) (1 + maxPipePathLength) = cut p.resp := by
    rw [← ofBuffer_fillWithNulls, pathField, writeConnectMessage, Nat.add_comm,
      List.drop_succ_cons, List.append_assoc, List.drop_left' hreq, List.take_left' hresp]
  have h₃ : pathField (writeConnectMessage p) (1 + 2 * maxPipePathLength) = cut p.notif := by
    rw [← ofBuffer_fillWithNulls, pathField, writeConnectMessage, Nat.add_comm,
      List.drop_succ_cons, List.drop_left' (by rw [List.length_append]; omega),
      List.take_of_length_le hnotif.le]
  rw [readConnectMessage, h₁, h₂, h₃]
  rfl

/-! ### The `ClientInfo` -/

/-- A field of 40 bytes after `strcpy`: the string with its NUL, or a string that fills it. -/
structure HoldsPath (s : CStr) (field : List UInt8) : Prop where
  size : field.length = maxPipePathLength
  bytes : field = s.bytes ∨ ∃ rest, field = s.bytes ++ 0 :: rest

theorem HoldsPath.ofBuffer_short {s : CStr} {field : List UInt8} (h : HoldsPath s field)
    (hs : s.length < maxPipePathLength) (rest : List UInt8) :
    CStr.ofBuffer (field ++ rest) = s := by
  rcases h.bytes with he | ⟨junk, he⟩
  · have := h.size
    rw [he] at this
    exact absurd this hs.ne
  · rw [he, List.append_assoc]
    exact s.ofBuffer_terminated _

theorem HoldsPath.ofBuffer_full {s : CStr} {field : List UInt8} (h : HoldsPath s field)
    (hs : s.length = maxPipePathLength) (rest : List UInt8) :
    (CStr.ofBuffer (field ++ rest)).bytes = s.bytes ++ (CStr.ofBuffer rest).bytes := by
  have he : field = s.bytes := by
    rcases h.bytes with he | ⟨junk, he⟩
    · exact he
    · have hsize := h.size
      rw [he, List.length_append, List.length_cons] at hsize
      simp only [CStr.length] at hs
      omega
  rw [he]
  exact List.takeWhile_append_of_pos CStr.ne_zero_of_mem

theorem length_le_strcpy (mem : List UInt8) (offset : ℕ) (s : CStr) (h : offset ≤ mem.length) :
    mem.length ≤ (strcpy mem offset s).length := by
  simp only [strcpy, List.length_append, List.length_take, List.length_cons, List.length_drop,
    CStr.length]
  omega

/-- A string that fits is in its field after `strcpy`, and what is before it stays. -/
theorem take_strcpy (mem : List UInt8) (offset : ℕ) {s : CStr} (hs : s.length ≤ maxPipePathLength)
    (hmem : offset + maxPipePathLength ≤ mem.length) :
    ∃ field, HoldsPath s field ∧
      (strcpy mem offset s).take (offset + maxPipePathLength) = mem.take offset ++ field := by
  have hoff : (mem.take offset).length = offset := by
    rw [List.length_take]
    omega
  refine ⟨(s.bytes ++ 0 :: mem.drop (offset + s.length + 1)).take maxPipePathLength, ⟨?_, ?_⟩, ?_⟩
  · rw [List.length_take, List.length_append, List.length_cons, List.length_drop]
    simp only [CStr.length] at *
    omega
  · rw [List.take_append]
    cases hn : maxPipePathLength - s.bytes.length with
    | zero =>
      refine .inl ?_
      rw [List.take_zero, List.append_nil]
      exact List.take_of_length_le hs
    | succ n =>
      rw [List.take_succ_cons, List.take_of_length_le hs]
      exact .inr ⟨_, rfl⟩
  · rw [strcpy, List.take_append, hoff, Nat.add_sub_cancel_left,
      List.take_of_length_le (by omega)]

theorem exists_fields (fresh : Vector UInt8 sizeofClientInfo) {p : Paths}
    (hreq : p.req.length ≤ maxPipePathLength) (hresp : p.resp.length ≤ maxPipePathLength)
    (hnotif : p.notif.length ≤ maxPipePathLength) :
    ∃ resp req notif, HoldsPath p.resp resp ∧ HoldsPath p.req req ∧ HoldsPath p.notif notif ∧
      (storeClientInfo fresh p).take sizeofClientInfo = resp ++ (req ++ notif) := by
  have hfresh : fresh.toList.length = 3 * maxPipePathLength := fresh.length_toList
  have hlen₁ := length_le_strcpy fresh.toList 0 p.resp (Nat.zero_le _)
  have hlen₂ := length_le_strcpy (strcpy fresh.toList 0 p.resp) maxPipePathLength p.req (by omega)
  obtain ⟨resp, hresp', h₁⟩ := take_strcpy fresh.toList 0 hresp (by omega)
  obtain ⟨req, hreq', h₂⟩ := take_strcpy (strcpy fresh.toList 0 p.resp) maxPipePathLength hreq
    (by omega)
  obtain ⟨notif, hnotif', h₃⟩ := take_strcpy
    (strcpy (strcpy fresh.toList 0 p.resp) maxPipePathLength p.req) (2 * maxPipePathLength) hnotif
    (by omega)
  refine ⟨resp, req, notif, hresp', hreq', hnotif', ?_⟩
  rw [Nat.zero_add, List.take_zero, List.nil_append] at h₁
  rw [h₁, ← Nat.two_mul] at h₂
  rw [h₂] at h₃
  exact h₃.trans (List.append_assoc _ _ _)

/-- What the client thread copies: each string of the `ClientInfo` up to the next NUL. -/
theorem exists_loaded (fresh : Vector UInt8 sizeofClientInfo) (p : Paths)
    (hreq : p.req.length ≤ maxPipePathLength) (hresp : p.resp.length ≤ maxPipePathLength)
    (hnotif : p.notif.length ≤ maxPipePathLength) (after : List UInt8) :
    ∃ resp req notif, HoldsPath p.resp resp ∧ HoldsPath p.req req ∧ HoldsPath p.notif notif ∧
      loadClientInfo (storeClientInfo fresh p) after = ⟨CStr.ofBuffer (req ++ (notif ++ after)),
        CStr.ofBuffer (resp ++ (req ++ (notif ++ after))), CStr.ofBuffer (notif ++ after)⟩ := by
  obtain ⟨resp, req, notif, hresp, hreq, hnotif, hmem⟩ := exists_fields fresh hreq hresp hnotif
  refine ⟨resp, req, notif, hresp, hreq, hnotif, ?_⟩
  have hdrop₁ : (resp ++ (req ++ (notif ++ after))).drop maxPipePathLength =
      req ++ (notif ++ after) := List.drop_left' hresp.size
  have hdrop₂ : (resp ++ (req ++ (notif ++ after))).drop (2 * maxPipePathLength) =
      notif ++ after := by
    rw [← List.append_assoc]
    refine List.drop_left' ?_
    rw [List.length_append, hresp.size, hreq.size]
    rfl
  rw [loadClientInfo, hmem]
  simp only [List.append_assoc, hdrop₁, hdrop₂]

theorem loadClientInfo_store (fresh : Vector UInt8 sizeofClientInfo) {p : Paths}
    (h : ∀ s ∈ p.all, s.length < maxPipePathLength) (after : List UInt8) :
    loadClientInfo (storeClientInfo fresh p) after = p := by
  have hreq := h p.req (by simp [Paths.all])
  have hresp := h p.resp (by simp [Paths.all])
  have hnotif := h p.notif (by simp [Paths.all])
  obtain ⟨resp, req, notif, hresp', hreq', hnotif', hload⟩ :=
    exists_loaded fresh p hreq.le hresp.le hnotif.le after
  rw [hload, hreq'.ofBuffer_short hreq, hresp'.ofBuffer_short hresp,
    hnotif'.ofBuffer_short hnotif]

/-- What the server opens for a client of this repository. -/
theorem opened_eq (fresh : Vector UInt8 sizeofClientInfo) (after : List UInt8) (id : CStr) :
    ∃ resp req notif, HoldsPath (cut (created id).resp) resp ∧
      HoldsPath (cut (created id).req) req ∧ HoldsPath (cut (created id).notif) notif ∧
      opened fresh after id = some ⟨CStr.ofBuffer (req ++ (notif ++ after)),
        CStr.ofBuffer (resp ++ (req ++ (notif ++ after))), CStr.ofBuffer (notif ++ after)⟩ := by
  have hcut : ∀ s, (cut s).length ≤ maxPipePathLength := by
    intro s
    rw [length_cut]
    omega
  rw [opened, readConnectMessage_write, Option.map_some]
  simp only [Option.some.injEq]
  exact exists_loaded fresh ⟨cut (created id).req, cut (created id).resp,
    cut (created id).notif⟩ (hcut _) (hcut _) (hcut _) after

/-! ### The round trip -/

theorem length_created (id : CStr) : (created id).req.length = id.length + 8 ∧
    (created id).resp.length = id.length + 9 ∧ (created id).notif.length = id.length + 10 := by
  simp only [created, withId, CStr.length, List.length_append, chars, List.length_map,
    List.length_cons, List.length_nil]
  omega

theorem opened_eq_iff (fresh : Vector UInt8 sizeofClientInfo) (after : List UInt8)
    (id : CStr) : opened fresh after id = some (created id) ↔
      id.length ≤ 29 ∨ id.length = 30 ∧ (CStr.ofBuffer after).length = 0 := by
  obtain ⟨resp, req, notif, hresp, hreq, hnotif, hopened⟩ := opened_eq fresh after id
  obtain ⟨hlreq, hlresp, hlnotif⟩ := length_created id
  have hcreq := length_cut (created id).req
  have hcresp := length_cut (created id).resp
  have hcnotif := length_cut (created id).notif
  rw [hopened, Option.some.injEq]
  simp only [maxPipePathLength] at *
  by_cases hshort : id.length ≤ 30
  · -- request and response path fit with their NUL
    rw [cut_of_le (by rw [maxPipePathLength]; omega)] at hreq hresp hnotif
    rw [hreq.ofBuffer_short (by rw [maxPipePathLength]; omega),
      hresp.ofBuffer_short (by rw [maxPipePathLength]; omega)]
    by_cases hfits : id.length ≤ 29
    · rw [hnotif.ofBuffer_short (by rw [maxPipePathLength]; omega)]
      exact iff_of_true rfl (.inl hfits)
    · have hfull := hnotif.ofBuffer_full (by rw [maxPipePathLength]; omega) after
      have heq : CStr.ofBuffer (notif ++ after) = (created id).notif ↔
          (CStr.ofBuffer after).length = 0 := by
        constructor
        · intro he
          rw [he] at hfull
          simpa [CStr.length] using hfull
        · intro he
          refine CStr.ext_bytes ?_
          rw [hfull, List.length_eq_zero_iff.mp he, List.append_nil]
      rw [show (⟨(created id).req, (created id).resp, CStr.ofBuffer (notif ++ after)⟩ : Paths) =
        created id ↔ CStr.ofBuffer (notif ++ after) = (created id).notif from
          ⟨fun h => congrArg Paths.notif h, fun h => by rw [h]⟩, heq]
      omega
  · -- the response path runs into the request path, or all three into each other
    refine iff_of_false (fun he => ?_) (by omega)
    have heresp := congrArg (fun p => p.resp.length) he
    have henotif := congrArg (fun p => p.notif.length) he
    have hfull := congrArg List.length
      (hresp.ofBuffer_full (by rw [maxPipePathLength]; omega) (req ++ (notif ++ after)))
    have hfull' := congrArg List.length
      (hnotif.ofBuffer_full (by rw [maxPipePathLength]; omega) after)
    simp only [CStr.length, List.length_append] at *
    by_cases h31 : id.bytes.length = 31
    · rw [hreq.ofBuffer_short (by rw [maxPipePathLength]; simp only [CStr.length]; omega)] at hfull
      omega
    · have hfull'' := congrArg List.length
        (hreq.ofBuffer_full (by rw [maxPipePathLength]; simp only [CStr.length]; omega)
          (notif ++ after))
      simp only [List.length_append] at hfull''
      omega

theorem withId_inj {pre : List Char} (hpre : (0 : UInt8) ∉ chars pre) {id id' : CStr}
    (h : withId pre hpre id = withId pre hpre id') : id = id' :=
  CStr.ext_bytes (List.append_cancel_left (congrArg CStr.bytes h))

theorem created_disjoint {id id' : CStr} (hne : id' ≠ id) :
    ∀ path ∈ (created id).all, path ∉ (created id').all := by
  intro path hpath hpath'
  simp only [Paths.all, created, List.mem_cons, List.not_mem_nil, or_false] at hpath hpath'
  rcases hpath with rfl | rfl | rfl <;> rcases hpath' with h | h | h
  -- the same kind gives the same id, two kinds differ in their prefix
  · exact hne (withId_inj _ h).symm
  · exact absurd (congrArg CStr.bytes h) (by simp [withId, chars])
  · exact absurd (congrArg CStr.bytes h) (by simp [withId, chars])
  · exact absurd (congrArg CStr.bytes h) (by simp [withId, chars])
  · exact hne (withId_inj _ h).symm
  · exact absurd (congrArg CStr.bytes h) (by simp [withId, chars])
  · exact absurd (congrArg CStr.bytes h) (by simp [withId, chars])
  · exact absurd (congrArg CStr.bytes h) (by simp [withId, chars])
  · exact hne (withId_inj _ h).symm

/-- The server opens the paths that the client has created exactly for ids of at most 29
bytes, and for those of 30 bytes as long as a NUL follows the `ClientInfo` in memory; the
created paths of different ids are different. -/
theorem opened_eq_created_iff (fresh : Vector UInt8 sizeofClientInfo) (after : List UInt8)
    (id : CStr) :
    (opened fresh after id = some (created id) ↔
      id.length ≤ 29 ∨ id.length = 30 ∧ (CStr.ofBuffer after).length = 0) ∧
    ∀ id', id' ≠ id → ∀ path ∈ (created id).all, path ∉ (created id').all :=
  ⟨opened_eq_iff fresh after id, fun _ hne => created_disjoint hne⟩

/-- Two ids of 31 bytes that differ in the last one. -/
def longId (last : Char) (h : (0 : UInt8) ∉ chars (List.replicate 30 'a' ++ [last])) : CStr :=
  ⟨chars (List.replicate 30 'a' ++ [last]), h⟩

/-- The server opens other paths than the client has created, and the same notification
pipe for both clients. -/
theorem opened_ne_created :
    opened (Vector.replicate _ 0) [0] (longId 'a' (by decide)) ≠
        some (created (longId 'a' (by decide))) ∧
      (opened (Vector.replicate _ 0) [0] (longId 'a' (by decide))).map Paths.notif =
        (opened (Vector.replicate _ 0) [0] (longId 'b' (by decide))).map Paths.notif := by
  decide +kernel

end IstKvs.Client
