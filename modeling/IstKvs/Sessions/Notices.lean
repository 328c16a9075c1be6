import IstKvs.Sessions.Failures
import IstKvs.Server.Messages

/-! What a client hears. In a sequence of complete calls, with any outcomes of their allocations,
the bytes written to a notification descriptor print as one pair for each write and each deletion
of a key that the descriptor was on the list of at that moment, in order and whatever lies behind
the strings in memory. Where every new subscription gets its allocations, these are the keys that
the client has subscribed to and not left since. -/

namespace IstKvs.Sessions

open IstKvs.Store IstKvs.Systems Function

variable {γ : Type*} [DecidableEq γ]

/-! ### Calls whose allocations may fail -/

/-- A call, and what becomes of the allocations that it makes. -/
structure Attempt (γ : Type*) where
  op : Op γ
  luck : Luck
  mem : WriteMem

/-- One complete call with these outcomes. -/
inductive Attempted (s : State γ) : Attempt γ → State γ → Prop
  | connect {c : γ} {client : Client} {luck : Luck} {mem : WriteMem} (hc : s.clients c = none)
      (hl : client.subscriptions = [])
      (hfd : ∀ d r, s.clients d = some r → r.fdNotif ≠ client.fdNotif) :
      Attempted s ⟨.connect c client, luck, mem⟩
        { s with clients := update s.clients c (some client) }
  | subscribe {c : γ} {client : Client} {key : CStr} {luck : Luck} {mem : WriteMem} {o : Outcome}
      (hc : s.clients c = some client) (h : kvsSubscribe s.ht key client luck = .ok o) :
      Attempted s ⟨.subscribe c key, luck, mem⟩ ⟨o.ht, update s.clients c (some o.client)⟩
  | unsubscribe {c : γ} {client : Client} {key : CStr} {luck : Luck} {mem : WriteMem} {o : Outcome}
      (hc : s.clients c = some client) (h : kvsUnsubscribe s.ht key client luck = .ok o) :
      Attempted s ⟨.unsubscribe c key, luck, mem⟩ ⟨o.ht, update s.clients c (some o.client)⟩
  | disconnect {c : γ} {client : Client} {closed : Bool} {luck : Luck} {mem : WriteMem}
      {o : Outcome} (hc : s.clients c = some client)
      (h : kvsDisconnect s.ht client closed = .ok o) :
      Attempted s ⟨.disconnect c closed, luck, mem⟩ ⟨o.ht, update s.clients c none⟩
  | writePair {key value : CStr} {luck : Luck} {mem : WriteMem} {ht : HashTable} {status : ℤ}
      {sent : List Message} (h : writePair s.ht key value mem = .ok (ht, status, sent)) :
      Attempted s ⟨.writePair key value, luck, mem⟩ { s with ht := ht }
  | deletePair {key : CStr} {luck : Luck} {mem : WriteMem} {ht : HashTable} {status : ℤ}
      {sent : List Message} (h : deletePair s.ht key = .ok (ht, status, sent)) :
      Attempted s ⟨.deletePair key, luck, mem⟩ { s with ht := ht }

/-- A call with every allocation succeeding. -/
def Op.lucky (op : Op γ) : Attempt γ := ⟨op, .all, .ok⟩

theorem Step.attempted {s t : State γ} {op : Op γ} (h : Step s op t) : Attempted s op.lucky t := by
  cases h with
  | connect hc hl hfd => exact .connect hc hl hfd
  | subscribe hc hk => exact .subscribe hc hk
  | unsubscribe hc hk => exact .unsubscribe hc hk
  | disconnect hc hk => exact .disconnect hc hk
  | writePair hk => exact .writePair hk
  | deletePair hk => exact .deletePair hk

/-- A subscription that is new to the list of an existing key gets its three allocations. -/
def Recorded (s : State γ) (a : Attempt γ) : Prop :=
  ∀ c key client, a.op = .subscribe c key → s.clients c = some client →
    refused key = true ∨ ¬ Present s.ht key ∨ Subscribed s.ht client.fdNotif key ∨
      (a.luck.subscriber = true ∧ a.luck.newSub = true ∧ a.luck.newSubKey = true)

/-! ### The bytes that are written -/

/-- The messages of one call, in order. -/
def sentBy (ht : HashTable) (a : Attempt γ) : List Message :=
  match a.op with
  | .writePair key value =>
    match writePair ht key value a.mem with
    | .ok r => r.2.2
    | .error _ => []
  | .deletePair key =>
    match deletePair ht key with
    | .ok r => r.2.2
    | .error _ => []
  | _ => []

omit [DecidableEq γ] in
theorem sentBy_writePair {ht : HashTable} {key value : CStr} {luck : Luck} {mem : WriteMem}
    {r : HashTable × ℤ × List Message} (h : writePair ht key value mem = .ok r) :
    sentBy ht (⟨.writePair key value, luck, mem⟩ : Attempt γ) = r.2.2 := by
  delta sentBy
  dsimp only
  rw [h]

omit [DecidableEq γ] in
theorem sentBy_deletePair {ht : HashTable} {key : CStr} {luck : Luck} {mem : WriteMem}
    {r : HashTable × ℤ × List Message} (h : deletePair ht key = .ok r) :
    sentBy ht (⟨.deletePair key, luck, mem⟩ : Attempt γ) = r.2.2 := by
  delta sentBy
  dsimp only
  rw [h]

/-- The bytes of messages: a key block and a value block each, with any memory behind the
strings. -/
inductive Blocks : List Message → List UInt8 → Prop
  | nil : Blocks [] []
  | cons {m : Message} {ms : List Message} {bytes : List UInt8} (keyPad valuePad : ℕ → UInt8)
      (h : Blocks ms bytes) :
      Blocks (m :: ms) (Server.block m.key keyPad ++ Server.block m.value valuePad ++ bytes)

/-- Calls with the states that they met, and what they have written to each descriptor. -/
inductive Trace : List (State γ × Attempt γ) → State γ → (Fd → List UInt8) → Prop
  | nil : Trace [] State.initial fun _ => []
  | snoc {history : List (State γ × Attempt γ)} {a : Attempt γ} {s t : State γ}
      {out bytes : Fd → List UInt8} (h : Trace history s out) (hs : Attempted s a t)
      (hb : ∀ fd, Blocks ((sentBy s.ht a).filter fun m => m.fd = fd) (bytes fd)) :
      Trace (history ++ [(s, a)]) t fun fd => out fd ++ bytes fd

/-! ### What a descriptor should hear -/

/-- Which keys exist, which descriptors are subscribed to them, and the descriptor of each
client. -/
structure Interests (γ : Type*) where
  present : CStr → Bool
  subscribed : Fd → CStr → Bool
  fdOf : γ → Option Fd

def Interests.none : Interests γ := ⟨fun _ => false, fun _ _ => false, fun _ => .none⟩

/-- A descriptor is subscribed from a subscription to an existing key on, until the key is
deleted or the client unsubscribes or disconnects. A key is there from a write that could make its
node. -/
def Interests.after (i : Interests γ) (a : Attempt γ) : Interests γ :=
  match a.op with
  | .connect c client => { i with fdOf := update i.fdOf c (some client.fdNotif) }
  | .subscribe c key => { i with
      subscribed := fun fd k => i.subscribed fd k ||
        (decide (i.fdOf c = some fd ∧ k = key) && !refused key && i.present key) }
  | .unsubscribe c key => { i with
      subscribed := fun fd k => i.subscribed fd k &&
        !(decide (i.fdOf c = some fd ∧ k = key) && !refused key) }
  | .disconnect c _ => { i with
      subscribed := fun fd k => i.subscribed fd k && !decide (i.fdOf c = some fd)
      fdOf := update i.fdOf c .none }
  | .writePair key _ => { i with
      present := update i.present key (i.present key || decide (a.mem = .ok)) }
  | .deletePair key => { i with
      present := update i.present key false
      subscribed := fun fd k => i.subscribed fd k && !decide (k = key) }

/-- The pair that a descriptor should hear of one call. -/
def Interests.heard (i : Interests γ) (fd : Fd) : Op γ → List (CStr × CStr)
  | .writePair key value => if i.subscribed fd key then [(key, value)] else []
  | .deletePair key => if i.subscribed fd key then [(key, deleteValue)] else []
  | _ => []

def interests (calls : List (Attempt γ)) : Interests γ := calls.foldl Interests.after .none

/-- The pairs that a descriptor should hear of a sequence of calls. -/
def heardFrom (i : Interests γ) (fd : Fd) : List (Attempt γ) → List (CStr × CStr)
  | [] => []
  | a :: calls => i.heard fd a.op ++ heardFrom (i.after a) fd calls

theorem heardFrom_snoc (i : Interests γ) (fd : Fd) (calls : List (Attempt γ)) (a : Attempt γ) :
    heardFrom i fd (calls ++ [a]) =
      heardFrom i fd calls ++ (calls.foldl Interests.after i).heard fd a.op := by
  induction calls generalizing i with
  | nil => simp [heardFrom]
  | cons b calls ih => simp [heardFrom, ih]

/-! ### The blocks of short messages -/

/-- The strings of a pair call are shorter than `MAX_STRING_SIZE`. -/
def Op.short : Op γ → Prop
  | .writePair key value => key.length < maxStringSize ∧ value.length < maxStringSize
  | .deletePair key => key.length < maxStringSize
  | _ => True

instance (op : Op γ) : Decidable op.short :=
  match op with
  | .writePair key value =>
    inferInstanceAs (Decidable (key.length < maxStringSize ∧ value.length < maxStringSize))
  | .deletePair key => inferInstanceAs (Decidable (key.length < maxStringSize))
  | .connect _ _ | .subscribe _ _ | .unsubscribe _ _ | .disconnect _ _ => isTrue trivial

theorem Blocks.notifications {ms : List Message} {bytes : List UInt8} (h : Blocks ms bytes)
    (hshort : ∀ m ∈ ms, m.key.length < maxStringSize ∧ m.value.length < maxStringSize) :
    ∃ ns : List Server.Notification, bytes = ns.flatMap Server.Notification.bytes ∧
      ns.map (fun n => (n.key.str, n.value.str)) = ms.map fun m => (m.key, m.value) := by
  induction h with
  | nil => exact ⟨[], rfl, rfl⟩
  | @cons m ms bytes keyPad valuePad h ih =>
    obtain ⟨ns, rfl, hns⟩ := ih fun m' hm' => hshort m' (List.mem_cons_of_mem _ hm')
    obtain ⟨hk, hv⟩ := hshort m List.mem_cons_self
    refine ⟨⟨⟨m.key, hk.le⟩, ⟨m.value, hv.le⟩, keyPad, valuePad⟩ :: ns, ?_, ?_⟩
    · simp [Server.Notification.bytes]
    · simp [hns]

/-! ### What a descriptor hears -/

/-- The pair that a descriptor hears of one call, by the lists of the table. -/
def heardBy (ht : HashTable) (fd : Fd) : Op γ → List (CStr × CStr)
  | .writePair key value => if Subscribed ht fd key then [(key, value)] else []
  | .deletePair key => if Subscribed ht fd key then [(key, deleteValue)] else []
  | _ => []

/-- One descriptor gets at most one message. -/
theorem filter_notifySubscribers {node : KeyNode} (hn : node.subscriber.Nodup) (fd : Fd)
    (key value : CStr) :
    (notifySubscribers node key value).filter (fun m => m.fd = fd) =
      if fd ∈ node.subscriber then [⟨fd, key, value⟩] else [] := by
  have hone : node.subscriber.filter (fun g => g = fd) =
      if fd ∈ node.subscriber then [fd] else [] := by
    have hrep := List.filter_eq (l := node.subscriber) fd
    split_ifs with hm
    · simpa [List.count_eq_one_of_mem hn hm] using hrep
    · simpa [List.count_eq_zero_of_not_mem hm] using hrep
  rw [notifySubscribers, List.filter_map]
  change List.map _ (node.subscriber.filter fun g => g = fd) = _
  rw [hone]
  split_ifs <;> rfl

theorem filter_sent {ht : HashTable} (hinv : SubInv ht) {key : CStr} {b : Bucket}
    (hb : bucketOf key = .ok b) (fd : Fd) (value : CStr) :
    (((findNode key (ht b)).elim [] fun n => notifySubscribers n key value).filter
      fun m => m.fd = fd).map (fun m => (m.key, m.value)) =
        if Subscribed ht fd key then [(key, value)] else [] := by
  simp only [Subscribed, subscribers_eq ht hb]
  cases hn : findNode key (ht b) with
  | none => simp
  | some n =>
    have hnodup : n.subscriber.Nodup :=
      hinv.nodup key n.subscriber (by rw [subscribers_eq ht hb, hn]; rfl)
    rw [Option.elim_some, filter_notifySubscribers hnodup]
    by_cases hm : fd ∈ n.subscriber <;> simp [hm]

theorem sentBy_eq {s t : State γ} (hinv : SubInv s.ht) {a : Attempt γ} (hs : Attempted s a t)
    (fd : Fd) :
    ((sentBy s.ht a).filter fun m => m.fd = fd).map (fun m => (m.key, m.value)) =
      heardBy s.ht fd a.op := by
  cases hs with
  | @writePair key value luck mem ht status sent hk =>
    obtain ⟨b, hb⟩ := bucketOf_of_writePair hk
    rw [sentBy_writePair (writePair_eq hb ..), heardBy, ← filter_sent hinv hb]
    cases hn : findNode key (s.ht b) with
    | none => simp [writeChain, hn, apply_ite PairResult.sent]
    | some n => simp [writeChain, hn]
  | @deletePair key luck mem ht status sent hk =>
    obtain ⟨b, hb⟩ := bucketOf_of_deletePair hk
    rw [sentBy_deletePair (deletePair_eq hb), heardBy, ← filter_sent hinv hb]
    cases hn : findNode key (s.ht b) with
    | none => simp [deleteChain, hn]
    | some n => simp [deleteChain, hn]
  | _ => rfl

omit [DecidableEq γ] in
theorem short_of_heardBy {ht : HashTable} {fd : Fd} {op : Op γ} (h : op.short)
    {p : CStr × CStr} (hp : p ∈ heardBy ht fd op) :
    p.1.length < maxStringSize ∧ p.2.length < maxStringSize := by
  cases op with
  | writePair key value =>
    simp only [heardBy] at hp
    split_ifs at hp
    · exact List.mem_singleton.mp hp ▸ h
    · cases hp
  | deletePair key =>
    simp only [heardBy] at hp
    split_ifs at hp
    · have hdelete : deleteValue.length < maxStringSize := by decide
      exact List.mem_singleton.mp hp ▸ ⟨h, hdelete⟩
    · cases hp
  | connect | subscribe | unsubscribe | disconnect => cases hp

theorem subInv_attempted {s t : State γ} {a : Attempt γ} (hinv : SubInv s.ht)
    (hs : Attempted s a t) : SubInv t.ht := by
  cases hs with
  | connect => exact hinv
  | subscribe hc hk =>
    obtain ⟨-, rfl⟩ | hspec := kvsSubscribe_cases hinv hk
    · exact hinv
    · exact hspec.effect.inv
  | unsubscribe hc hk =>
    obtain ⟨hht, -⟩ | ⟨he, -⟩ := kvsUnsubscribe_spec hinv hk
    · exact hht ▸ hinv
    · exact he.inv
  | disconnect hc hk =>
    obtain ⟨ht, hw, hk⟩ := ok_of_bind hk
    obtain rfl := Except.ok.inj hk
    exact (unsubscribeAll_spec _ hinv hw).1
  | writePair hk => exact (fewer_writePair hinv hk).1
  | deletePair hk => exact (fewer_deletePair hinv hk).1

theorem Trace.told {history : List (State γ × Attempt γ)} {s : State γ} {out : Fd → List UInt8}
    (h : Trace history s out) (hshort : ∀ e ∈ history, e.2.op.short) :
    SubInv s.ht ∧ ∀ fd, ∃ ns : List Server.Notification,
      out fd = ns.flatMap Server.Notification.bytes ∧
        ns.map (fun n => (n.key.str, n.value.str)) =
          history.flatMap fun e => heardBy e.1.ht fd e.2.op := by
  induction h with
  | nil => exact ⟨subInv_create, fun fd => ⟨[], rfl, rfl⟩⟩
  | @snoc history a s t out bytes h hs hb ih =>
    obtain ⟨hinv, hout⟩ := ih fun e he => hshort e (List.mem_append_left _ he)
    refine ⟨subInv_attempted hinv hs, fun fd => ?_⟩
    obtain ⟨ns, hns, hpairs⟩ := hout fd
    have hsent := sentBy_eq hinv hs fd
    obtain ⟨ns', hns', hpairs'⟩ := (hb fd).notifications fun m hmem => by
      have hin : (m.key, m.value) ∈ heardBy s.ht fd a.op := by
        rw [← hsent]
        exact List.mem_map_of_mem hmem
      exact short_of_heardBy (hshort (s, a) (by simp)) hin
    refine ⟨ns ++ ns', ?_, ?_⟩
    · change out fd ++ bytes fd = _
      rw [hns, hns', List.flatMap_append]
    · rw [List.map_append, hpairs, hpairs', hsent, List.flatMap_append, List.flatMap_singleton]

theorem printed_notifications (ns : List Server.Notification) :
    Server.printed (ns.flatMap Server.Notification.bytes) =
      ns.map fun n => (n.key.str, n.value.str) := by
  have hempty : ([] : List UInt8).length < 2 * keyMessageSize := by decide
  have hprint := Server.printed_messages ns hempty
  rwa [List.append_nil] at hprint

/-- With any outcomes of the allocations, a descriptor prints one pair for each write to and each
deletion of a key whose list it was on then, in their order. -/
theorem printed_eq_heardBy {history : List (State γ × Attempt γ)} {s : State γ}
    {out : Fd → List UInt8} (h : Trace history s out) (hshort : ∀ e ∈ history, e.2.op.short)
    (fd : Fd) :
    Server.printed (out fd) = history.flatMap fun e => heardBy e.1.ht fd e.2.op := by
  obtain ⟨ns, hns, hpairs⟩ := (h.told hshort).2 fd
  rw [hns, printed_notifications, hpairs]

/-! ### One call -/

/-- The interests are those of the table and the clients. -/
structure Matches (i : Interests γ) (s : State γ) : Prop where
  present : ∀ key, Present s.ht key ↔ i.present key = true
  subscribed : ∀ fd key, Subscribed s.ht fd key ↔ i.subscribed fd key = true
  fdOf : ∀ c, i.fdOf c = (s.clients c).map Client.fdNotif

section Steps
variable {i : Interests γ} {s t : State γ} {a : Attempt γ}

/-- No descriptor moves when a client is replaced by one with the same descriptor. -/
theorem Matches.moved (h : Matches i s) {c : γ} {client client' : Client}
    (hc : s.clients c = some client) (hfd : client'.fdNotif = client.fdNotif) (d : γ) :
    i.fdOf d = ((update s.clients c (some client') : γ → Option Client) d).map Client.fdNotif := by
  rw [h.fdOf]
  by_cases hd : d = c
  · subst hd
    simp [hc, hfd]
  · simp [hd]

omit [DecidableEq γ] in
/-- A change of the table at one key is matched by interests that change at that key. -/
theorem Matches.effect (h : Matches i s) {key : CStr} {ht : HashTable} {P : Fd → Prop} {Q : Prop}
    (he : Effect s.ht ht key P Q) {i' : Interests γ} {clients : γ → Option Client}
    (hpresent : i'.present key = true ↔ Q) (hsubscribed : ∀ fd, i'.subscribed fd key = true ↔ P fd)
    (hothers : ∀ fd j, j ≠ key →
      i'.present j = i.present j ∧ i'.subscribed fd j = i.subscribed fd j)
    (hfd : ∀ c, i'.fdOf c = (clients c).map Client.fdNotif) : Matches i' ⟨ht, clients⟩ where
  present j := by
    rw [he.present_iff]
    split_ifs with hj
    · rw [hj, hpresent]
    · rw [(hothers 0 j hj).1, h.present]
  subscribed fd j := by
    rw [he.subscribed_iff]
    split_ifs with hj
    · rw [hj, hsubscribed]
    · rw [(hothers fd j hj).2, h.subscribed]
  fdOf := hfd

theorem Matches.connect (h : Matches i s) (c : γ) (client : Client) (luck : Luck) (mem : WriteMem) :
    Matches (i.after ⟨.connect c client, luck, mem⟩)
      { s with clients := update s.clients c (some client) } := by
  refine ⟨h.present, h.subscribed, fun d => ?_⟩
  by_cases hd : d = c
  · subst hd
    simp [Interests.after]
  · simp [Interests.after, hd, h.fdOf]

section Calls
variable {c : γ} {client : Client} {key : CStr} {luck : Luck} {mem : WriteMem} {o : Outcome}

theorem Matches.subscribe (h : Matches i s) (hinv : SubInv s.ht)
    (hc : s.clients c = some client)
    (hrec : refused key = true ∨ ¬ Present s.ht key ∨ Subscribed s.ht client.fdNotif key ∨
      luck.subscriber = true)
    (hfdo : o.client.fdNotif = client.fdNotif)
    (hk : kvsSubscribe s.ht key client luck = .ok o) :
    Matches (i.after ⟨.subscribe c key, luck, mem⟩) ⟨o.ht, update s.clients c (some o.client)⟩ := by
  have hfd : i.fdOf c = some client.fdNotif := by rw [h.fdOf, hc, Option.map_some]
  obtain ⟨hr, rfl⟩ | hspec := kvsSubscribe_cases hinv hk
  · refine ⟨h.present, fun fd j => ?_, h.moved hc rfl⟩
    rw [h.subscribed]
    simp [Interests.after, hr]
  · have hr := hspec.accepted
    refine h.effect hspec.effect (h.present key).symm (fun fd => ?_) (fun fd j hj => ?_)
      (h.moved hc hfdo)
    · -- a subscription that the list does not take is to a key that is absent or listed already
      have hluck : fd = client.fdNotif → Present s.ht key →
          Subscribed s.ht fd key ∨ luck.subscriber = true := by
        rintro rfl hp
        obtain hr' | hn | hs | hm := hrec
        · simp [hr] at hr'
        · exact absurd hp hn
        · exact .inl hs
        · exact .inr hm
      have hsub := h.subscribed fd key
      have hpres := h.present key
      simp only [Interests.after, hfd, hr, Bool.or_eq_true, Bool.and_eq_true, decide_eq_true_eq,
        Option.some.injEq, Bool.not_false, and_true, ← hsub, ← hpres, eq_comm (a := fd)]
      tauto
    · simp [Interests.after, hj]

theorem Matches.unsubscribe (h : Matches i s) (hinv : SubInv s.ht)
    (hc : s.clients c = some client) (hk : kvsUnsubscribe s.ht key client luck = .ok o) :
    Matches (i.after ⟨.unsubscribe c key, luck, mem⟩)
      ⟨o.ht, update s.clients c (some o.client)⟩ := by
  have hfd : i.fdOf c = some client.fdNotif := by rw [h.fdOf, hc, Option.map_some]
  cases hr : refused key with
  | true =>
    rw [kvsUnsubscribe_refused hr] at hk
    obtain rfl := Except.ok.inj hk
    refine ⟨h.present, fun fd j => ?_, h.moved hc rfl⟩
    rw [h.subscribed]
    simp [Interests.after, hr]
  | false =>
    rcases kvsUnsubscribe_spec hinv hk with ⟨-, -, hr'⟩ | ⟨he, hcl, -⟩
    · rw [hr] at hr'
      cases hr'
    · refine h.effect he (h.present key).symm (fun fd => ?_) (fun fd j hj => ?_) (h.moved hc hcl)
      · simp [Interests.after, h.subscribed, hr, hfd, eq_comm (a := fd)]
      · simp [Interests.after, hj]

theorem Matches.disconnect (h : Matches i s) (ht : Tracked s)
    (hc : s.clients c = some client) {ht' : HashTable} (hw : unsubscribeAll s.ht client = .ok ht')
    (closed : Bool) :
    Matches (i.after ⟨.disconnect c closed, luck, mem⟩) ⟨ht', update s.clients c none⟩ := by
  have hfd : i.fdOf c = some client.fdNotif := by rw [h.fdOf, hc, Option.map_some]
  obtain ⟨-, hsub, hpres⟩ := unsubscribeAll_spec client.subscriptions ht.inv hw
  refine ⟨fun j => ?_, fun fd j => ?_, fun d => ?_⟩
  · rw [hpres]
    exact h.present j
  · -- the keys of the client's descriptor are all in its list
    have hlisted : Subscribed s.ht client.fdNotif j → j ∈ client.subscriptions := ht.own hc
    rw [hsub]
    by_cases hf : fd = client.fdNotif
    · subst hf
      simp only [Interests.after, hfd]
      simpa using hlisted
    · simp [Interests.after, h.subscribed, hfd, hf, Ne.symm hf]
  · by_cases hd : d = c
    · subst hd
      simp [Interests.after]
    · simp [Interests.after, hd, h.fdOf]

theorem Matches.writePair (h : Matches i s) (hinv : SubInv s.ht) {value : CStr}
    {ht : HashTable} {status : ℤ} {sent : List Message}
    (hk : Store.writePair s.ht key value mem = .ok (ht, status, sent)) :
    Matches (i.after ⟨.writePair key value, luck, mem⟩) { s with ht := ht } := by
  obtain ⟨b, hb⟩ := bucketOf_of_writePair hk
  rw [writePair_eq hb] at hk
  obtain ⟨rfl, -⟩ := Prod.mk.inj (Except.ok.inj hk)
  refine h.effect (effect_writeChain hinv hb value mem) ?_ (fun fd => ?_) (fun fd j hj => ?_)
    h.fdOf
  · simp [Interests.after, h.present]
  · exact (h.subscribed fd key).symm
  · simp [Interests.after, hj]

theorem Matches.deletePair (h : Matches i s) (hinv : SubInv s.ht) {ht : HashTable} {status : ℤ}
    {sent : List Message} (hk : Store.deletePair s.ht key = .ok (ht, status, sent)) :
    Matches (i.after ⟨.deletePair key, luck, mem⟩) { s with ht := ht } := by
  obtain ⟨b, hb⟩ := bucketOf_of_deletePair hk
  rw [deletePair_eq hb] at hk
  obtain ⟨rfl, -⟩ := Prod.mk.inj (Except.ok.inj hk)
  refine h.effect (effect_deleteChain hinv hb) ?_ (fun fd => ?_) (fun fd j hj => ?_) h.fdOf
  · simp [Interests.after]
  · simp [Interests.after]
  · simp [Interests.after, hj]

end Calls

theorem Matches.step (h : Matches i s) (ht : Tracked s) (hrec : Recorded s a)
    (hs : Attempted s a t) : Tracked t ∧ Matches (i.after a) t := by
  cases hs with
  | connect hc hl hfd => exact ⟨ht.connect hc hl hfd, h.connect ..⟩
  | @subscribe c client key luck mem o hc hk =>
    have hrec' := hrec c key client rfl hc
    have hboth : Recordable s.ht key client luck := by
      unfold Recordable
      tauto
    have hkeeps := keeps_subscribe ht.inv (fun _ => ht.own hc) (ht.valid c client hc) hboth hk
    exact ⟨ht.replace hc hkeeps, h.subscribe ht.inv hc (by tauto) (hkeeps.fdNotif rfl) hk⟩
  | @unsubscribe c client key luck mem o hc hk =>
    have hkeeps := keeps_unsubscribe ht.inv (fun _ => ht.own hc) (ht.valid c client hc) hk
    exact ⟨ht.replace hc hkeeps, h.unsubscribe ht.inv hc hk⟩
  | @disconnect c client closed luck mem o hc hk =>
    obtain ⟨ht', hw, hk⟩ := ok_of_bind hk
    obtain rfl := Except.ok.inj hk
    obtain ⟨hinv, hsub, -⟩ := unsubscribeAll_spec client.subscriptions ht.inv hw
    have hkeeps : Keeps s.ht client (ht', client, false) :=
      keeps_gone hinv (fun _ => ht.own hc) hsub
    exact ⟨ht.replace hc hkeeps, h.disconnect ht hc hw _⟩
  | writePair hk =>
    obtain ⟨hinv, hsub⟩ := fewer_writePair ht.inv hk
    exact ⟨ht.table hinv hsub, h.writePair ht.inv hk⟩
  | deletePair hk =>
    obtain ⟨hinv, hsub⟩ := fewer_deletePair ht.inv hk
    exact ⟨ht.table hinv hsub, h.deletePair ht.inv hk⟩

omit [DecidableEq γ] in
/-- By matching interests a descriptor should hear what it hears. -/
theorem Matches.heard (h : Matches i s) (fd : Fd) (op : Op γ) :
    heardBy s.ht fd op = i.heard fd op := by
  cases op <;> simp [heardBy, Interests.heard, h.subscribed]

end Steps

/-! ### Sequences of calls -/

section Runs
variable {history : List (State γ × Attempt γ)} {s : State γ} {out : Fd → List UInt8}

theorem Trace.matches (h : Trace history s out) (hrec : ∀ e ∈ history, Recorded e.1 e.2) :
    Tracked s ∧ Matches (interests (history.map Prod.snd)) s ∧
      ∀ fd, (history.flatMap fun e => heardBy e.1.ht fd e.2.op) =
        heardFrom .none fd (history.map Prod.snd) := by
  induction h with
  | nil =>
    refine ⟨tracked_initial, ⟨fun key => ?_, fun fd key => ?_, fun c => rfl⟩, fun fd => rfl⟩
    · simp [Present, State.initial, subscribers_create, interests, Interests.none]
    · exact iff_of_false (not_subscribed_create fd key) (by simp [interests, Interests.none])
  | @snoc history a s t out bytes h hs hb ih =>
    obtain ⟨ht, hm, hheard⟩ := ih fun e he => hrec e (List.mem_append_left _ he)
    obtain ⟨ht', hm'⟩ := hm.step ht (hrec (s, a) (by simp)) hs
    refine ⟨ht', ?_, fun fd => ?_⟩
    · rw [List.map_append, interests, List.foldl_append]
      exact hm'
    · rw [List.flatMap_append, hheard, List.map_append, List.map_singleton, heardFrom_snoc,
        List.flatMap_singleton, hm.heard]
      rfl

/-- In every run whose new subscriptions get their allocations, each descriptor prints one pair for
each write to and each deletion of a key that it was subscribed to then, in their order. -/
theorem printed_eq_heard (h : Trace history s out) (hrec : ∀ e ∈ history, Recorded e.1 e.2)
    (hshort : ∀ e ∈ history, e.2.op.short) (fd : Fd) :
    Server.printed (out fd) = heardFrom .none fd (history.map Prod.snd) := by
  rw [printed_eq_heardBy h hshort, (h.matches hrec).2.2]

theorem Trace.before {before after : List (State γ × Attempt γ)} {e : State γ × Attempt γ}
    (h : Trace history s out) (heq : history = before ++ e :: after) :
    ∃ out, Trace before e.1 out := by
  induction h generalizing after with
  | nil => simp at heq
  | @snoc history a s t out bytes h hs hb ih =>
    rcases List.eq_nil_or_concat after with rfl | ⟨after, x, rfl⟩
    · obtain ⟨rfl, hx⟩ := List.append_inj' heq rfl
      obtain rfl := List.head_eq_of_cons_eq hx
      exact ⟨out, h⟩
    · rw [List.concat_eq_append, ← List.cons_append, ← List.append_assoc] at heq
      exact ih (List.append_inj' heq rfl).1

theorem exists_trace {P : State γ → Attempt γ → Prop} {calls : List (Attempt γ)}
    (h : Run (guarded P Attempted) State.initial calls s) :
    ∃ history out, Trace history s out ∧ history.map Prod.snd = calls ∧
      ∀ e ∈ history, P e.1 e.2 := by
  have hblocks : ∀ ms, ∃ bytes, Blocks ms bytes := by
    intro ms
    induction ms with
    | nil => exact ⟨_, .nil⟩
    | cons m ms ih =>
      obtain ⟨bytes, hb⟩ := ih
      exact ⟨_, .cons (fun _ => 0) (fun _ => 0) hb⟩
  induction h with
  | nil => exact ⟨[], _, .nil, rfl, by simp⟩
  | @snoc calls s t a hrun hs ih =>
    obtain ⟨history, out, hout, rfl, hP⟩ := ih
    choose bytes hb using fun fd => hblocks ((sentBy s.ht a).filter fun m => m.fd = fd)
    refine ⟨_, _, hout.snoc hs.2 hb, by simp, fun e he => ?_⟩
    rcases List.mem_append.mp he with he | he
    · exact hP e he
    · exact List.mem_singleton.mp he ▸ hs.1

end Runs

theorem run_lucky {ops : List (Op γ)} {s : State γ} (h : Run Step State.initial ops s) :
    Run (guarded Recorded Attempted) State.initial (ops.map Op.lucky) s := by
  induction h with
  | nil => exact .nil
  | snoc _ hs ih =>
    rw [List.map_append]
    exact ih.snoc ⟨fun _ _ _ _ _ => .inr (.inr (.inr ⟨rfl, rfl, rfl⟩)), hs.attempted⟩

/-- The client hears of the deletion. -/
theorem printed_eq_heard_deletedKey :
    ∃ (history : List (State Unit × Attempt Unit)) (s : State Unit) (out : Fd → List UInt8),
      Trace history s out ∧ history.map Prod.snd = deletedKey.map Op.lucky ∧
      Server.printed (out 5) = [(⟨chars ['k'], by decide⟩, deleteValue)] := by
  obtain ⟨s, hrun, -⟩ := run_deletedKey
  obtain ⟨history, out, htrace, hcalls, hrec⟩ := exists_trace (run_lucky hrun)
  have hshort : ∀ e ∈ history, e.2.op.short := by
    intro e he
    have hmem : e.2 ∈ deletedKey.map Op.lucky := hcalls ▸ List.mem_map_of_mem he
    obtain ⟨op, hop, heq⟩ := List.mem_map.mp hmem
    have hall : ∀ op ∈ deletedKey, op.short := by decide
    rw [← heq]
    exact hall op hop
  refine ⟨history, s, out, htrace, hcalls, ?_⟩
  rw [printed_eq_heard htrace hrec hshort 5, hcalls]
  rfl

/-- A client subscribes to a key of the table without memory for the new subscriber, and the key
is written again. -/
def unheard : List (Attempt Unit) :=
  let k : CStr := .ofBuffer (chars ['k'])
  [(Op.connect () ⟨3, 4, 5, []⟩).lucky, (Op.writePair k k).lucky,
    ⟨.subscribe () k, ⟨false, true, true, true⟩, .ok⟩, (Op.writePair k k).lucky]

theorem silent_writePair {s t : State γ} {key value : CStr} {luck : Luck} {mem : WriteMem}
    (hinv : SubInv s.ht) (hnone : ∀ fd, ¬ Subscribed s.ht fd key)
    (hs : Attempted s ⟨.writePair key value, luck, mem⟩ t) (fd : Fd) :
    Blocks ((sentBy s.ht ⟨(.writePair key value : Op γ), luck, mem⟩).filter fun m => m.fd = fd)
      [] := by
  have hsent := sentBy_eq hinv hs fd
  rw [heardBy, if_neg (hnone fd), List.map_eq_nil_iff] at hsent
  rw [hsent]
  exact .nil

/-- The client is told that it has subscribed, and it does not hear of the write. -/
theorem printed_ne_heard :
    ∃ (history : List (State Unit × Attempt Unit)) (s : State Unit) (out : Fd → List UInt8),
      Trace history s out ∧ history.map Prod.snd = unheard ∧ (∀ a ∈ unheard, a.op.short) ∧
      Server.printed (out 5) = [] ∧ heardFrom .none 5 unheard ≠ [] := by
  let k : CStr := ⟨chars ['k'], by decide⟩
  let client : Client := ⟨3, 4, 5, []⟩
  let clients : Unit → Option Client := update (fun _ => none) () (some client)
  have hb : bucketOf k = .ok ⟨10, by decide⟩ := by decide
  have hacc : refused k = false := by decide
  obtain ⟨⟨ht, status, sent⟩, hw⟩ : ∃ r, writePair createHashTable k k .ok = .ok r :=
    ⟨_, writePair_eq hb k .ok⟩
  obtain ⟨o, hs⟩ : ∃ o, kvsSubscribe ht k client ⟨false, true, true, true⟩ = .ok o :=
    kvsSubscribe_ok hacc hb _
  obtain ⟨hinv, hfewer⟩ := fewer_writePair subInv_create hw
  obtain ⟨hr, -⟩ | hspec := kvsSubscribe_cases hinv hs
  · rw [hacc] at hr
    cases hr
  have hnone : ∀ fd, ¬ Subscribed createHashTable fd k := fun fd => not_subscribed_create fd k
  have hnone' : ∀ fd, ¬ Subscribed o.ht fd k := by
    intro fd hsub
    obtain hsub | ⟨-, -, hm⟩ := (hspec.effect.self fd).mp hsub
    · exact hnone fd (hfewer fd k hsub)
    · cases hm
  have h₁ : Attempted (State.initial : State Unit) (Op.connect () client).lucky _ :=
    .connect rfl rfl (by rintro _ _ ⟨⟩)
  have h₂ : Attempted (⟨createHashTable, clients⟩ : State Unit) (Op.writePair k k).lucky _ :=
    .writePair hw
  have h₃ : Attempted (⟨ht, clients⟩ : State Unit)
      ⟨.subscribe () k, ⟨false, true, true, true⟩, .ok⟩ _ := .subscribe rfl hs
  have h₄ : Attempted (⟨o.ht, update clients () (some o.client)⟩ : State Unit)
      (Op.writePair k k).lucky _ := .writePair (writePair_eq hb k .ok)
  have t₁ := Trace.nil.snoc h₁ fun _ => .nil
  have t₂ := t₁.snoc h₂ (silent_writePair subInv_create hnone h₂)
  have t₃ := t₂.snoc h₃ fun _ => .nil
  have t₄ := t₃.snoc h₄ (silent_writePair hspec.effect.inv hnone' h₄)
  exact ⟨_, _, _, t₄, rfl, by decide, rfl, by decide⟩

end IstKvs.Sessions
