import IstKvs.Memory.Runs
import IstKvs.Sessions.Requests

/-! The requests of a client in dynamic memory (`operations.c`): the structure of a
client and its own list of keys next to the table. Each request does in memory what
the request model says, and a client that disconnects leaves nothing behind but the
table. -/

namespace IstKvs.Memory

open IstKvs.Systems IstKvs.Store IstKvs.Sessions Function

/-! ### Programs -/

def subscriptionAccess : NodeAccess Cell where
  next
    | .subscriptionsKeyNode _ e => some e
    | _ => none
  setNext
    | .subscriptionsKeyNode key _, e => .subscriptionsKeyNode key e
    | x, _ => x

def loadSubscriptionKey (a : Addr) : Prog (Option Addr) := do
  match ← load a with
  | .subscriptionsKeyNode key _ => pure key
  | _ => trap (.invalid a)

def loadClient (a : Addr) : Prog ClientCell := do
  match ← load a with
  | .client c => pure c
  | _ => trap (.invalid a)

/-- `(*client)->subscriptions = e`. -/
def setSubscriptions (client : Addr) (e : Option Addr) : Prog Unit := do
  let c ← loadClient client
  store client (.client { c with subscriptions := e })

/-- The key goes to the head of the client's list; -1 without memory. -/
def addSubscription (client : Addr) (key : CStr) (newSub newSubKey : Bool) : Prog ℤ := do
  let p ← tryMalloc newSub (.subscriptionsKeyNode none none)
  match p with
  | none => pure (-1)
  | some a =>
    let k ← strdup key newSubKey
    match k with
    | none =>
      free a
      pure (-1)
    | some k =>
      let c ← loadClient client
      store a (.subscriptionsKeyNode (some k) c.subscriptions)
      setSubscriptions client (some a)
      pure 0

/-- What `kvs_subscribe` does after the bucket: a client that was not subscribed records
the key, and is answered unless that fails. -/
def recordSubscription (client : Addr) (key : CStr) (luck : Luck) (r : ℤ × Bool) :
    Prog (Option (UInt8 × UInt8) × ℤ) := do
  let answer := some (opCodeSubscribe, if r.2 then resultKeyExists else resultKeyDoesntExist)
  let status := if luck.respond then 0 else -1
  if r.1 = 0 then do
    let added ← addSubscription client key luck.newSub luck.newSubKey
    if added = 0 then pure (answer, status) else pure (none, -1)
  else pure (answer, status)

def subscribeInMemory (ht client : Addr) (key : CStr) (luck : Luck) :
    Prog (Option (UInt8 × UInt8) × ℤ) :=
  if refused key then pure (some (opCodeSubscribe, resultKeyDoesntExist), 0)
  else do
    let index ← bucketIndex key
    let c ← loadClient client
    let r ← subscribeKey ht index key c.fdNotif luck.subscriber
    recordSubscription client key luck r

/-- `strcmp(current->key, key) == 0`. -/
def matchSubscription (key : CStr) (a : Addr) : Prog Bool := do
  let k ← loadSubscriptionKey a
  let s ← loadText k
  pure (decide (strcmp s key = 0))

def freeSubscription (a : Addr) : Prog Unit := do
  let k ← loadSubscriptionKey a
  freePtr k
  free a

def removeSubscriptions (key : CStr) (client : Addr) : Prog Unit := do
  let c ← loadClient client
  let fuel ← handedOut
  sweep subscriptionAccess (matchSubscription key) (setSubscriptions client) freeSubscription fuel
    none c.subscriptions

def unsubscribeInMemory (ht client : Addr) (key : CStr) (luck : Luck) :
    Prog (Option (UInt8 × UInt8) × ℤ) :=
  if refused key then pure (some (opCodeUnsubscribe, 1), 0)
  else do
    removeSubscriptions key client
    let c ← loadClient client
    let r ← auxUnsubscribe ht key c.fdNotif
    let answer := if r ≠ 0 then UInt8.ofNat '1'.toNat else UInt8.ofNat '0'.toNat
    pure (some (opCodeUnsubscribe, answer), if luck.respond then 0 else 1)

/-- One turn of the loop of `kvs_disconnect` over the client's list. -/
def dropSubscription (ht client cur : Addr) : Prog (Option Addr) := do
  let k ← loadSubscriptionKey cur
  let key ← loadText k
  let c ← loadClient client
  let _ ← auxUnsubscribe ht key c.fdNotif
  let e ← getNext subscriptionAccess cur
  freeSubscription cur
  pure e

def dropSubscriptions (ht client : Addr) : ℕ → Option Addr → Prog Unit
  | _, none => pure ()
  | 0, some _ => trap .endless
  | fuel + 1, some cur => do
    let e ← dropSubscription ht client cur
    dropSubscriptions ht client fuel e

/-- `closed` says whether the pipes could be closed; the client itself is freed when it
is removed from the list of clients. -/
def disconnectInMemory (ht client : Addr) (closed : Bool) : Prog (Option (UInt8 × UInt8) × ℤ) := do
  let c ← loadClient client
  let fuel ← handedOut
  dropSubscriptions ht client fuel c.subscriptions
  setSubscriptions client none
  let result := if closed then UInt8.ofNat '0'.toNat else UInt8.ofNat '1'.toNat
  free client
  pure (some (opCodeDisconnect, result), 0)

/-! ### Layout -/

/-- A client with the addresses of its list. -/
structure ClientLayout where
  fdReq : Fd
  fdResp : Fd
  fdNotif : Fd
  subscriptions : List (Addr × (Addr × CStr))

def keysOf (l : List (Addr × (Addr × CStr))) : List CStr := l.map fun n => n.2.2

def ClientLayout.client (c : ClientLayout) : Client :=
  ⟨c.fdReq, c.fdResp, c.fdNotif, keysOf c.subscriptions⟩

def subscriptionKind : NodeKind Cell (Addr × CStr) where
  toNodeAccess := subscriptionAccess
  cell k e := .subscriptionsKeyNode (some k.1) e
  own k := [(k.1, .text k.2)]
  next_cell _ _ := rfl
  setNext_cell _ _ _ := rfl

/-- The cell of a client with another head of its list. -/
def clientRoot (a : Addr) (c : Client) (e : Option Addr) : Addr × Cell :=
  (a, .client ⟨c.fdReq, c.fdResp, c.fdNotif, e⟩)

/-- The cells of a client. -/
def clientCells (a : Addr) (c : ClientLayout) : List (Addr × Cell) :=
  clientRoot a c.client (headOf c.subscriptions none) ::
    segment subscriptionKind c.subscriptions none

/-- Exactly the cells of a client, and `R`. -/
def ClientHolds (a : Addr) (R : List (Addr × Cell)) (client : Client) (P : List (Addr × Cell)) :
    Prop :=
  ∃ c : ClientLayout, c.client = client ∧ P.Perm (clientCells a c ++ R)

/-! ### The list of a client -/

section List
variable {a : Addr} {client : Client} {P R : List (Addr × Cell)} {key : CStr}

theorem reads_loadClient {c : ClientCell} (hm : (a, .client c) ∈ P) : Reads P (loadClient a) c :=
  (Reads.load hm).bind Reads.pure

theorem reads_loadSubscriptionKey {k e : Option Addr}
    (hm : (a, .subscriptionsKeyNode k e) ∈ P) : Reads P (loadSubscriptionKey a) k :=
  (Reads.load hm).bind Reads.pure

theorem does_setSubscriptions (e e' : Option Addr) (P R : List (Addr × Cell))
    (hp : P.Perm (clientRoot a client e :: R)) :
    Does P (setSubscriptions a e') fun _ P' => P' = clientRoot a client e' :: R := by
  refine (reads_loadClient (hp.mem_iff.mpr List.mem_cons_self)).does ?_
  exact Does.store hp _

theorem reads_matchSubscription (key : CStr) (n : Addr × (Addr × CStr)) (e : Option Addr)
    (P : List (Addr × Cell)) (hm : (n.1, subscriptionKind.cell n.2 e) ∈ P)
    (hown : subscriptionKind.own n.2 ⊆ P) :
    Reads P (matchSubscription key n.1) (decide (n.2.2 = key)) := by
  refine (reads_loadSubscriptionKey hm).bind ?_
  refine (reads_loadText (hown List.mem_cons_self)).bind ?_
  simp only [strcmp_eq_zero]
  exact Reads.pure

theorem does_freeSubscription (n : Addr × (Addr × CStr)) (e : Option Addr)
    (P R : List (Addr × Cell))
    (hp : P.Perm ((n.1, subscriptionKind.cell n.2 e) :: (subscriptionKind.own n.2 ++ R))) :
    Does P (freeSubscription n.1) fun _ P' => P'.Perm R := by
  refine (reads_loadSubscriptionKey (hp.mem_iff.mpr List.mem_cons_self)).does ?_
  refine (Does.free (hp.trans (List.Perm.swap ..))).bind ?_
  rintro _ _ rfl
  exact (Does.free .rfl).imp fun _ P' h => ⟨P', .rfl, h ▸ .rfl⟩

variable (hc : ClientHolds a R client P)
include hc

theorem ClientHolds.load : ∃ e,
    Reads P (loadClient a) ⟨client.fdReq, client.fdResp, client.fdNotif, e⟩ := by
  obtain ⟨c, rfl, hp⟩ := hc
  exact ⟨_, reads_loadClient (hp.mem_iff.mpr List.mem_cons_self)⟩

theorem does_addSubscription (key : CStr) (newSub newSubKey : Bool) :
    Does P (addSubscription a key newSub newSubKey) fun status P' =>
      if newSub && newSubKey then status = 0 ∧
        ClientHolds a R { client with subscriptions := key :: client.subscriptions } P'
      else status = -1 ∧ ClientHolds a R client P' := by
  refine (does_tryMalloc newSub _).bind fun p P₁ h => ?_
  rcases h with ⟨rfl, rfl, rfl⟩ | ⟨rfl, s, rfl, rfl⟩
  · exact Does.pure ⟨rfl, hc⟩
  refine (does_tryMalloc newSubKey (.text key)).bind fun p P₂ h => ?_
  rcases h with ⟨rfl, rfl, rfl⟩ | ⟨rfl, k, rfl, rfl⟩
  · refine (Does.free .rfl).bind ?_
    rintro _ _ rfl
    exact Does.pure ⟨rfl, hc⟩
  obtain ⟨c, rfl, hp⟩ := hc
  have hroot : clientRoot a c.client (headOf c.subscriptions none) ∈ P :=
    hp.mem_iff.mpr List.mem_cons_self
  refine (reads_loadClient (List.mem_cons_of_mem _ (List.mem_cons_of_mem _ hroot))).does ?_
  refine (Does.store (List.Perm.swap ..) _).bind ?_
  rintro _ _ rfl
  -- the new node is in memory; the head of the list is set last
  have hset : ((s, Cell.subscriptionsKeyNode (some k) (headOf c.subscriptions none)) ::
      (k, .text key) :: P).Perm (clientRoot a c.client (headOf c.subscriptions none) ::
        ((s, .subscriptionsKeyNode (some k) (headOf c.subscriptions none)) :: (k, .text key) ::
          (segment subscriptionKind c.subscriptions none ++ R))) := by
    refine ((hp.cons _).cons _).trans ?_
    exact @List.perm_middle _ _ [(s, Cell.subscriptionsKeyNode (some k)
      (headOf c.subscriptions none)), (k, .text key)] _
  refine (does_setSubscriptions _ (some s) _ _ hset).bind ?_
  rintro _ _ rfl
  exact Does.pure ⟨rfl, { c with subscriptions := (s, (k, key)) :: c.subscriptions }, rfl, .rfl⟩

theorem does_removeSubscriptions (key : CStr) :
    Does P (removeSubscriptions key a) fun _ P' =>
      ClientHolds a R (clientRemoveSubscription key client) P' := by
  obtain ⟨c, rfl, hp⟩ := hc
  refine (reads_loadClient (hp.mem_iff.mpr List.mem_cons_self)).does
    (Does.handedOut fun fuel hfuel => ?_)
  have hlen : c.subscriptions.length ≤ fuel := by
    have hle := length_le_segment (κ := subscriptionKind) c.subscriptions none
    have hperm := hp.length_eq
    simp only [clientCells, List.length_cons, List.length_append] at hperm
    omega
  have hset := @does_setSubscriptions a c.client
  have hsweep := Does.sweep (κ := subscriptionKind) hset (fun k => decide (k.2 = key))
    (reads_matchSubscription key) does_freeSubscription [] c.subscriptions hp hlen
  refine hsweep.imp fun _ P' hp' => ⟨P', .rfl, ⟨c.fdReq, c.fdResp, c.fdNotif,
    c.subscriptions.filter fun n => !decide (n.2.2 = key)⟩, ?_, hp'⟩
  simp only [ClientLayout.client, clientRemoveSubscription, keysOf, List.filter_map,
    Function.comp_def, strcmp_eq_zero, ne_eq, decide_not]

end List

/-! ### Requests -/

/-- The cells of the table and of a client, and `R`. -/
def Beside (ht a : Addr) (R : List (Addr × Cell)) (table : HashTable) (client : Client)
    (P : List (Addr × Cell)) : Prop :=
  ∃ PT, Represents ht table PT ∧ ClientHolds a (PT ++ R) client P

section Requests
variable {ht a : Addr} {R P : List (Addr × Cell)} {table : HashTable} {client : Client} {b : Bucket}
  {key : CStr} {B : Type}

/-- The bucket of a key next to the client. -/
theorem Beside.bucket (hb : Beside ht a R table client P) (b : Bucket) :
    ∃ heads locks G, BucketHolds ht heads locks b G (table b) P ∧
      ∀ chain P', BucketHolds ht heads locks b G chain P' →
        Beside ht a R (update table b chain) client P' := by
  obtain ⟨PT, hr, c, rfl, hp⟩ := hb
  obtain ⟨heads, locks, G, ⟨n, hn, hpn⟩, hback⟩ := hr.bucket b
  refine ⟨heads, locks, G ++ (clientCells a c ++ R), ⟨n, hn, ?_⟩, ?_⟩
  · refine hp.trans ((List.perm_append_comm_assoc ..).trans ?_)
    refine (hpn.append_right _).trans (.of_eq ?_)
    simp
  · rintro chain P' ⟨n', hn', hp'⟩
    refine ⟨_, hback chain _ ⟨n', hn', .rfl⟩, c, rfl, hp'.trans ?_⟩
    refine List.Perm.trans (.of_eq ?_) (List.perm_append_comm_assoc ..)
    simp

theorem Beside.load (hb : Beside ht a R table client P) :
    ∃ e, Reads P (loadClient a) ⟨client.fdReq, client.fdResp, client.fdNotif, e⟩ := by
  obtain ⟨PT, -, hc⟩ := hb
  exact hc.load

/-- The outcome of `kvs_subscribe` from what it did in the bucket. -/
def recorded (table : HashTable) (client : Client) (key : CStr) (luck : Luck) (r : ℤ × Bool) :
    Outcome :=
  let answer := some (opCodeSubscribe, if r.2 then resultKeyExists else resultKeyDoesntExist)
  let status := if luck.respond then 0 else -1
  if r.1 = 0 then
    if luck.newSub && luck.newSubKey then
      ⟨table, { client with subscriptions := key :: client.subscriptions }, answer, status⟩
    else ⟨table, client, none, -1⟩
  else ⟨table, client, answer, status⟩

theorem kvsSubscribe_recorded (href : refused key = false) (hk : bucketOf key = .ok b)
    (luck : Luck) : kvsSubscribe table key client luck =
      let r := subscribeChain (table b) key client.fdNotif luck.subscriber
      .ok (recorded (update table b r.chain) client key luck (r.subscriptionStatus, r.found)) := by
  rw [kvsSubscribe, if_neg (by simp [href]), hk]
  simp only [recorded]
  by_cases hs : (subscribeChain (table b) key client.fdNotif luck.subscriber).subscriptionStatus = 0
  · by_cases hm : (luck.newSub && luck.newSubKey) = true
    · simp only [hs, hm, if_true]
      exact if_pos hs
    · simp only [hs, hm, if_true, Bool.false_eq_true, if_false]
      exact if_pos hs
  · simp only [hs, if_false]
    exact if_neg hs

theorem does_recordSubscription (hb : Beside ht a R table client P) (key : CStr) (luck : Luck)
    (r : ℤ × Bool) :
    Does P (recordSubscription a key luck r) fun q P' =>
      q = ((recorded table client key luck r).answer, (recorded table client key luck r).status) ∧
      Beside ht a R (recorded table client key luck r).ht (recorded table client key luck r).client
        P' := by
  simp only [recordSubscription, recorded]
  by_cases hs : r.1 = 0
  · obtain ⟨PT, hr, hc⟩ := hb
    simp only [hs, if_true]
    refine (does_addSubscription hc key _ _).bind fun added P₂ h => ?_
    by_cases hm : (luck.newSub && luck.newSubKey) = true
    · rw [if_pos hm] at h
      simp only [h.1, hm, if_true]
      exact Does.pure ⟨rfl, PT, hr, h.2⟩
    · rw [if_neg hm] at h
      simp only [h.1, hm]
      exact Does.pure ⟨rfl, PT, hr, h.2⟩
  · simp only [hs, if_false]
    exact Does.pure ⟨rfl, hb⟩

theorem does_subscribeInMemory (hb : Beside ht a R table client P) (key : CStr) (luck : Luck) :
    match Sessions.kvsSubscribe table key client luck with
    | .ok o => Does P (subscribeInMemory ht a key luck) fun r P' =>
        r = (o.answer, o.status) ∧ Beside ht a R o.ht o.client P'
    | .error f => Fails P (subscribeInMemory ht a key luck) f := by
  cases href : refused key with
  | true =>
    rw [kvsSubscribe_refused href, subscribeInMemory, if_pos href]
    exact Does.pure ⟨rfl, hb⟩
  | false =>
    have hnot : ¬ refused key = true := by simp [href]
    cases hk : bucketOf key with
    | error f =>
      rw [subscribeInMemory, if_neg hnot, Sessions.kvsSubscribe, if_neg hnot, hk]
      exact fails_bucketIndex hk _
    | ok b =>
      obtain ⟨heads, locks, G, hbucket, hback⟩ := hb.bucket b
      obtain ⟨e, hload⟩ := hb.load
      rw [subscribeInMemory, if_neg hnot, kvsSubscribe_recorded href hk]
      refine (reads_bucketIndex hk).does (hload.does ?_)
      refine (does_subscribeKey hbucket client.fdNotif luck.subscriber).bind ?_
      rintro _ P' ⟨rfl, hb'⟩
      exact does_recordSubscription (hback _ _ hb') key luck _

/-- The search for the client among the subscribers of a key. -/
theorem Represents.auxUnsubscribe {PT : List (Addr × Cell)} (hr : Represents ht table PT)
    (key : CStr) (client : Client) :
    match kvsAuxUnsubscribe table key client with
    | .ok r => Does PT (auxUnsubscribe ht key client.fdNotif) fun result P' =>
        result = r.2 ∧ Represents ht r.1 P'
    | .error f => Fails PT (auxUnsubscribe ht key client.fdNotif) f := by
  cases hk : bucketOf key with
  | error f =>
    rw [kvsAuxUnsubscribe, hk]
    exact fails_bucketIndex hk _
  | ok b =>
    obtain ⟨heads, locks, G, hbucket, hback⟩ := hr.bucket b
    rw [kvsAuxUnsubscribe_eq hk]
    exact (does_auxUnsubscribe hbucket client.fdNotif hk).imp fun result P' h =>
      ⟨P', .rfl, h.1, hback _ _ h.2⟩

theorem does_unsubscribeInMemory (hb : Beside ht a R table client P) (key : CStr) (luck : Luck) :
    match Sessions.kvsUnsubscribe table key client luck with
    | .ok o => Does P (unsubscribeInMemory ht a key luck) fun r P' =>
        r = (o.answer, o.status) ∧ Beside ht a R o.ht o.client P'
    | .error f => Fails P (unsubscribeInMemory ht a key luck) f := by
  cases href : refused key with
  | true =>
    rw [kvsUnsubscribe_refused href, unsubscribeInMemory, if_pos href]
    exact Does.pure ⟨rfl, hb⟩
  | false =>
    have hnot : ¬ refused key = true := by simp [href]
    rw [unsubscribeInMemory, Sessions.kvsUnsubscribe, if_neg hnot, if_neg hnot]
    have hremove : Does P (removeSubscriptions key a) fun _ P' =>
        Beside ht a R table (clientRemoveSubscription key client) P' := by
      obtain ⟨PT, hr, hc⟩ := hb
      exact (does_removeSubscriptions hc key).imp fun _ P' hc' => ⟨P', .rfl, PT, hr, hc'⟩
    cases haux : kvsAuxUnsubscribe table key (clientRemoveSubscription key client) with
    | error f =>
      simp only [haux]
      refine hremove.fails fun _ P' hb' => ?_
      obtain ⟨e, hload⟩ := hb'.load
      obtain ⟨PT, hr, c, hc, hp⟩ := hb'
      have hfail := hr.auxUnsubscribe key (clientRemoveSubscription key client)
      rw [haux] at hfail
      have hframe := (hfail.frame (clientCells a c ++ R)).perm
        (hp.trans (List.perm_append_comm_assoc ..))
      exact hload.fails (hframe.bind _)
    | ok r =>
      simp only [haux]
      refine hremove.bind fun _ P' hb' => ?_
      obtain ⟨e, hload⟩ := hb'.load
      obtain ⟨PT, hr, c, hc, hp⟩ := hb'
      have hdo := hr.auxUnsubscribe key (clientRemoveSubscription key client)
      rw [haux] at hdo
      have hframe := (hdo.frame (clientCells a c ++ R)).perm
        (hp.trans (List.perm_append_comm_assoc ..))
      refine hload.does (hframe.bind ?_)
      rintro _ _ ⟨PT₂, rfl, rfl, hr₂⟩
      exact Does.pure ⟨rfl, PT₂, hr₂, c, hc, List.perm_append_comm_assoc ..⟩

/-- One turn of the walk of `kvs_disconnect`: the key is unsubscribed and its entry is
freed, while the client still points to where its list was. -/
theorem does_dropSubscription {n : Addr × (Addr × CStr)} {l : List (Addr × (Addr × CStr))}
    {PT : List (Addr × Cell)} {head : Option Addr} (hr : Represents ht table PT)
    (hp : P.Perm (clientRoot a client head ::
      (segment subscriptionKind (n :: l) none ++ (PT ++ R)))) :
    match kvsAuxUnsubscribe table n.2.2 client with
    | .ok r => Does P (dropSubscription ht a n.1) fun e P' => e = headOf l none ∧
        ∃ PT', Represents ht r.1 PT' ∧
          P'.Perm (clientRoot a client head :: (segment subscriptionKind l none ++ (PT' ++ R)))
    | .error f => Fails P (dropSubscription ht a n.1) f := by
  -- the table in front of the client, the entry and the rest of the list
  have hmove : ∀ PT' : List (Addr × Cell), (clientRoot a client head ::
      (segment subscriptionKind (n :: l) none ++ (PT' ++ R))).Perm
      (PT' ++ ((n.1, subscriptionKind.cell n.2 (headOf l none)) :: (subscriptionKind.own n.2 ++
        (clientRoot a client head :: (segment subscriptionKind l none ++ R))))) := by
    intro PT'
    rw [← List.cons_append]
    refine (List.perm_append_comm_assoc ..).trans (.append_left _ ?_)
    rw [segment_cons, List.cons_append, List.cons_append, List.append_assoc]
    exact (List.Perm.swap ..).trans (.cons _ List.perm_middle.symm)
  have hsplit := hp.trans (hmove PT)
  have hkey := reads_loadSubscriptionKey (P := P) (a := n.1) (k := some n.2.1)
    (e := headOf l none) (hsplit.mem_iff.mpr (List.mem_append_right _ List.mem_cons_self))
  have htext := reads_loadText (P := P) (a := n.2.1) (s := n.2.2)
    (hsplit.mem_iff.mpr (by simp [subscriptionKind]))
  have hload := reads_loadClient (P := P) (hp.mem_iff.mpr List.mem_cons_self)
  have haux := hr.auxUnsubscribe n.2.2 client
  cases hrun : kvsAuxUnsubscribe table n.2.2 client with
  | error f =>
    rw [hrun] at haux
    exact hkey.fails (htext.fails (hload.fails (((haux.frame _).perm hsplit).bind _)))
  | ok r =>
    rw [hrun] at haux
    refine hkey.does (htext.does (hload.does (((haux.frame _).perm hsplit).bind ?_)))
    rintro _ _ ⟨PT', rfl, -, hr'⟩
    refine (Reads.getNext (κ := subscriptionKind) (b := n.2)
      (List.mem_append_right _ List.mem_cons_self)).does ?_
    have hfree := List.perm_append_comm_assoc PT' ((n.1, subscriptionKind.cell n.2
      (headOf l none)) :: subscriptionKind.own n.2)
      (clientRoot a client head :: (segment subscriptionKind l none ++ R))
    refine (does_freeSubscription n _ _ _ hfree).bind fun _ P' hp' => Does.pure ⟨rfl, PT', hr', ?_⟩
    refine hp'.trans (List.perm_middle.trans (.cons _ ?_))
    exact List.perm_append_comm_assoc ..

/-- The walk of the model, key by key. -/
def dropKeys (client : Client) : List CStr → HashTable → Except Fault HashTable
  | [], table => .ok table
  | key :: keys, table =>
    match kvsAuxUnsubscribe table key client with
    | .ok r => dropKeys client keys r.1
    | .error f => .error f

theorem unsubscribeAll_eq (table : HashTable) (client : Client) :
    unsubscribeAll table client = dropKeys client client.subscriptions table := by
  unfold unsubscribeAll
  generalize client.subscriptions = keys
  induction keys generalizing table with
  | nil => rfl
  | cons key keys ih =>
    rw [List.foldlM_cons, dropKeys]
    cases kvsAuxUnsubscribe table key client with
    | error f => rfl
    | ok r => exact ih r.1

/-- The whole walk. -/
theorem does_dropSubscriptions {l : List (Addr × (Addr × CStr))} {PT : List (Addr × Cell)}
    {head : Option Addr} (hr : Represents ht table PT)
    (hp : P.Perm (clientRoot a client head :: (segment subscriptionKind l none ++ (PT ++ R))))
    {fuel : ℕ} (hfuel : l.length ≤ fuel) :
    match dropKeys client (keysOf l) table with
    | .ok table' => Does P (dropSubscriptions ht a fuel (headOf l none)) fun _ P' =>
        ∃ PT', Represents ht table' PT' ∧ P'.Perm (clientRoot a client head :: (PT' ++ R))
    | .error f => Fails P (dropSubscriptions ht a fuel (headOf l none)) f := by
  induction l generalizing table P PT fuel with
  | nil => cases fuel <;> exact Does.pure ⟨PT, hr, hp⟩
  | cons n l ih =>
    obtain ⟨k, rfl⟩ := Nat.exists_eq_add_one_of_ne_zero (Nat.ne_zero_of_lt hfuel)
    rw [List.length_cons] at hfuel
    have hstep := does_dropSubscription hr hp
    have hcons : keysOf (n :: l) = n.2.2 :: keysOf l := rfl
    rw [hcons, dropKeys]
    cases hrun : kvsAuxUnsubscribe table n.2.2 client with
    | error f =>
      rw [hrun] at hstep
      exact hstep.bind _
    | ok r =>
      rw [hrun] at hstep
      simp only
      cases hrest : dropKeys client (keysOf l) r.1 with
      | error f =>
        refine hstep.fails ?_
        rintro _ P' ⟨rfl, PT', hr', hp'⟩
        have hrec := ih hr' hp' (show l.length ≤ k by omega)
        rw [hrest] at hrec
        exact hrec
      | ok table' =>
        refine hstep.bind ?_
        rintro _ P' ⟨rfl, PT', hr', hp'⟩
        have hrec := ih hr' hp' (show l.length ≤ k by omega)
        rw [hrest] at hrec
        exact hrec

theorem does_disconnectInMemory (hb : Beside ht a R table client P) (closed : Bool) :
    match Sessions.kvsDisconnect table client closed with
    | .ok o => Does P (disconnectInMemory ht a closed) fun r P' =>
        r = (o.answer, o.status) ∧ ∃ PT', Represents ht o.ht PT' ∧ P'.Perm (PT' ++ R)
    | .error f => Fails P (disconnectInMemory ht a closed) f := by
  obtain ⟨PT, hr, c, rfl, hp⟩ := hb
  have hload := reads_loadClient (hp.mem_iff.mpr List.mem_cons_self)
  have hlen : ∀ {fuel}, P.length ≤ fuel → c.subscriptions.length ≤ fuel := by
    intro fuel hfuel
    have hle := length_le_segment (κ := subscriptionKind) c.subscriptions none
    have hperm := hp.length_eq
    simp only [clientCells, List.length_cons, List.length_append] at hperm
    omega
  have hdrop := fun (fuel : ℕ) (hfuel : P.length ≤ fuel) =>
    does_dropSubscriptions hr hp (hlen hfuel)
  have hkeys : c.client.subscriptions = keysOf c.subscriptions := rfl
  rw [kvsDisconnect, unsubscribeAll_eq, hkeys]
  cases hrun : dropKeys c.client (keysOf c.subscriptions) table with
  | error f =>
    refine hload.fails (Does.handedOut_fails fun fuel hfuel => ?_)
    have hfail := hdrop fuel hfuel
    rw [hrun] at hfail
    exact hfail.bind _
  | ok table' =>
    refine hload.does (Does.handedOut fun fuel hfuel => ?_)
    have hdo := hdrop fuel hfuel
    rw [hrun] at hdo
    refine hdo.bind ?_
    rintro _ P₁ ⟨PT', hr', hp₁⟩
    refine (does_setSubscriptions _ none _ _ hp₁).bind ?_
    rintro _ _ rfl
    refine (Does.free .rfl).bind ?_
    rintro _ _ rfl
    exact Does.pure ⟨rfl, PT', hr', .rfl⟩

end Requests

end IstKvs.Memory
